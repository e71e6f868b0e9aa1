import SRos.Elf.Model
import SRos.Paging.Alloc

/-!
# An address space while a program is loaded

The loader only allocates pages of the user space and stores bytes to them. Beside the address
space this file keeps an image: for each address the byte that was stored there since its page
was last allocated. A page that has been allocated holds the image and, where the image has no
byte, whatever its frame held before. A page that was there already is only stored zeros to.
-/

namespace SRos.Elf

open Bytes Paging

/-- The pages from 4 MB up to the top of the user stack. -/
def UserPage (p : Nat) : Prop := 0x400 ≤ p ∧ p < 0xE0000

theorem vaddr_page (p o : Nat) : p * 4096 + o = vaddr (p / 1024) (p % 1024) o := by
  unfold vaddr
  omega

section Pages

variable {own : Nat → Kind} {s s' : Vm} {p o : Nat}

theorem UserPage.entry (h : UserPage p) : 1 ≤ p / 1024 ∧ p / 1024 < 1023 := by
  unfold UserPage at h
  omega

/-- A user page that can be allocated. -/
theorem newPage_of_alloc (h : Laid own s) (hp : UserPage p) (ho : o < 4096)
    (hs : pagingAllocPage (p * 4096 + o) s = some s') :
    ∃ f own', NewPage own s (p / 1024) (p % 1024) f own' s' := by
  rw [vaddr_page] at hs
  rcases h.allocPage_cases hp.entry.1 hp.entry.2 (Nat.mod_lt p (by decide)) ho with
    ⟨f, own', s'', hs'', hnew, -⟩ | ⟨hnone, -⟩
  · obtain rfl : s'' = s' := Option.some.inj (hs''.symm.trans hs)
    exact ⟨f, own', hnew⟩
  · rw [hnone] at hs
    cases hs

/-- A user address is mapped to a page. -/
theorem translate_user (h : Laid own s) (hp : UserPage p) (ho : o < 4096) {a : Nat}
    (ha : s.translate (p * 4096 + o) = some a) : ∃ g, own g = .page ∧ a = g + o := by
  obtain ⟨k, hk⟩ := h.cr3
  rw [vaddr_page, vaddr, translate_split h.core.cr3_frame (Nat.mod_lt p (by decide)) ho] at ha
  split at ha
  · next hmapped =>
      obtain ⟨hpde, hpte⟩ := mapped_iff.mp hmapped
      have htable := h.entries _ k hk _ hp.entry.1 hp.entry.2 hpde
      exact ⟨_, h.targets _ htable _ (Nat.mod_lt p (by decide)) hpte, (Option.some.inj ha).symm⟩
  · cases ha

/-- Two frames have no address in common. -/
theorem frame_inj (h : Laid own s) {f g o' : Nat} (hf : own f ≠ .none) (hg : own g ≠ .none)
    (ho : o < 4096) (ho' : o' < 4096) (heq : f + o = g + o') : f = g ∧ o = o' := by
  have := (h.isFrame hf).1
  have := (h.isFrame hg).1
  omega

section StoreByte

variable {g o' : Nat}

/-- A byte of a page changes no word of a table or directory. -/
theorem storeByte_word (h : Laid own s) (hg : own g = .page) (ho : o < 4096) (b : UInt8) {f : Nat}
    (hf : (own f).structural = true) {j : Nat} (hj : j < 1024) :
    load32 (Function.update s.mem (g + o) b) (f + 4 * j) = load32 s.mem (f + 4 * j) := by
  apply load32_update_ne
  have hfn : own f ≠ .none := fun hnone => by simp [hnone, Kind.structural] at hf
  have hfg : f ≠ g := by
    rintro rfl
    simp [hg, Kind.structural] at hf
  have := (h.isFrame hfn).1
  have := (h.isFrame (f := g) (by simp [hg])).1
  omega

theorem storeByte_laid (h : Laid own s) (hg : own g = .page) (ho : o < 4096) (b : UInt8) :
    Laid own { s with mem := Function.update s.mem (g + o) b } := by
  apply h.write
  intro f hf o' ho'
  apply Function.update_of_ne
  intro heq
  have hfn : own f ≠ .none := fun hnone => by simp [hnone, Kind.structural] at hf
  obtain ⟨rfl, -⟩ := frame_inj h hfn (by simp [hg]) ho' ho heq
  simp [hg, Kind.structural] at hf

/-- The translation of the user space does not depend on the memory of pages. -/
theorem storeByte_translate (h : Laid own s) (hg : own g = .page) (ho' : o' < 4096) (b : UInt8)
    (hp : UserPage p) (ho : o < 4096) :
    Vm.translate { s with mem := Function.update s.mem (g + o') b } (p * 4096 + o) =
      s.translate (p * 4096 + o) := by
  obtain ⟨k, hk⟩ := h.cr3
  have hpde : pdeAt (Function.update s.mem (g + o') b) s.cr3 (p / 1024) =
      pdeAt s.mem s.cr3 (p / 1024) :=
    storeByte_word h hg ho' b (by simp [hk, Kind.structural]) (by have := hp.entry; omega)
  rw [vaddr_page]
  refine translate_congr rfl h.core.cr3_frame (Nat.mod_lt p (by decide)) ho hpde fun hpres => ?_
  have htable := h.entries _ k hk _ hp.entry.1 hp.entry.2 hpres
  dsimp only
  rw [pteAt, pteAt, hpde]
  exact storeByte_word h hg ho' b (by simp [htable, Kind.structural]) (Nat.mod_lt p (by decide))

end StoreByte

end Pages

/-- The image when the page `p` is allocated. -/
def clearPage (p : Nat) (img : Nat → Option UInt8) : Nat → Option UInt8 :=
  fun v => if v / 4096 = p then none else img v

/-- The address space `s` that the loader has made of `s₀`. The pages in `fresh` have been
allocated, each with the frame it maps to. -/
structure Loading (own₀ : Nat → Kind) (s₀ : Vm) (img : Nat → Option UInt8) (fresh : Nat → Option Nat)
    (own : Nat → Kind) (s : Vm) : Prop where
  laid₀ : Laid own₀ s₀
  laid : Laid own s
  kinds : ∀ g, own₀ g ≠ .free → own g = own₀ g
  cr3 : s.cr3 = s₀.cr3
  free : ∀ f ∈ s.free, f ∈ s₀.free
  unread : ∀ f ∈ s.free, ∀ o < 4096, s.mem (f + o) = s₀.mem (f + o)
  taken : ∀ p f, fresh p = some f → UserPage p ∧ own f = .page ∧ f ∈ s₀.free
  inj : ∀ p q f, fresh p = some f → fresh q = some f → p = q
  maps : ∀ p f, fresh p = some f → ∀ o < 4096, s.translate (p * 4096 + o) = some (f + o)
  old : ∀ p, UserPage p → fresh p = none → ∀ o < 4096,
    s.translate (p * 4096 + o) = s₀.translate (p * 4096 + o)
  bytes : ∀ p f, fresh p = some f → ∀ o < 4096,
    s.mem (f + o) = (img (p * 4096 + o)).getD (s₀.mem (f + o))
  zeros : ∀ p, UserPage p → fresh p = none → ∀ o < 4096, ∀ b, img (p * 4096 + o) = some b →
    b = 0 ∧ s.read8 (p * 4096 + o) = some 0

namespace Loading

variable {own₀ own : Nat → Kind} {s₀ s s' : Vm} {img : Nat → Option UInt8} {fresh : Nat → Option Nat}
  {p o : Nat}

theorem start (h : Laid own s) : Loading own s (fun _ => none) (fun _ => none) own s where
  laid₀ := h
  laid := h
  kinds := fun _ _ => rfl
  cr3 := rfl
  free := fun _ hf => hf
  unread := fun _ _ _ _ => rfl
  taken := by simp
  inj := by simp
  maps := by simp
  old := fun _ _ _ _ _ => rfl
  bytes := by simp
  zeros := by simp

/-- A page that was there already is not in a fresh frame. -/
theorem old_frame (h : Loading own₀ s₀ img fresh own s) (hp : UserPage p) (hold : fresh p = none)
    (ho : o < 4096) {a : Nat} (ha : s.translate (p * 4096 + o) = some a) :
    ∃ g, own₀ g = .page ∧ own g = .page ∧ a = g + o := by
  rw [h.old p hp hold o ho] at ha
  obtain ⟨g, hg, rfl⟩ := translate_user h.laid₀ hp ho ha
  exact ⟨g, hg, by rw [h.kinds g (by simp [hg]), hg], rfl⟩

/-- A fresh frame was free. -/
theorem fresh_free (h : Loading own₀ s₀ img fresh own s) {f : Nat} (hf : fresh p = some f) :
    own₀ f = .free := h.laid₀.free_of_mem (h.taken p f hf).2.2

/-- A fresh page and one that was there already have no byte in common. -/
theorem fresh_ne_old (h : Loading own₀ s₀ img fresh own s) {f q o' a : Nat} (hf : fresh p = some f)
    (ho : o < 4096) (hq : UserPage q) (hold : fresh q = none) (ho' : o' < 4096)
    (ha : s.translate (q * 4096 + o') = some a) : f + o ≠ a := by
  obtain ⟨g, hg, -, rfl⟩ := h.old_frame hq hold ho' ha
  intro heq
  have hfree := h.fresh_free hf
  exact Laid.ne_of_own hfree hg (by simp)
    (frame_inj h.laid₀ (by simp [hfree]) (by simp [hg]) ho ho' heq).1

/-- A byte of a fresh page has no second user address. -/
theorem fresh_byte_ne (h : Loading own₀ s₀ img fresh own s) {f q o' a : Nat} (hf : fresh p = some f)
    (ho : o < 4096) (hq : UserPage q) (ho' : o' < 4096)
    (ha : s.translate (q * 4096 + o') = some a) (hne : p = q → o ≠ o') : f + o ≠ a := by
  cases hfq : fresh q with
  | none => exact h.fresh_ne_old hf ho hq hfq ho' ha
  | some g =>
      obtain rfl : g + o' = a := Option.some.inj ((h.maps q g hfq o' ho').symm.trans ha)
      have hfp := (h.taken p f hf).2.1
      have hgp := (h.taken q g hfq).2.1
      intro heq
      obtain ⟨rfl, rfl⟩ := frame_inj h.laid (by simp [hfp]) (by simp [hgp]) ho ho' heq
      exact hne (h.inj p q f hf hfq) rfl

theorem update_eq_some {f g q : Nat} :
    Function.update fresh p (some f) q = some g ↔ q = p ∧ f = g ∨ q ≠ p ∧ fresh q = some g := by
  by_cases hqp : q = p
  · simp [hqp]
  · simp [hqp]

theorem update_eq_none {f q : Nat} :
    Function.update fresh p (some f) q = none ↔ q ≠ p ∧ fresh q = none := by
  by_cases hqp : q = p
  · simp [hqp]
  · simp [hqp]

/-- A page is allocated. -/
theorem alloc (h : Loading own₀ s₀ img fresh own s) (hp : UserPage p)
    (hs : pagingAllocPage (p * 4096) s = some s') :
    ∃ f own', Loading own₀ s₀ (clearPage p img) (Function.update fresh p (some f)) own' s' := by
  obtain ⟨f, own', hnew⟩ := newPage_of_alloc (o := 0) h.laid hp (by omega) (by rwa [Nat.add_zero])
  obtain ⟨ps, hps⟩ := hnew.pops
  have hsub : ∀ g ∈ s'.free, g ∈ s.free := by
    intro g hg
    rw [hps]
    exact List.mem_append_right _ hg
  have hf : f ∈ s.free := by simp [hps]
  have hmem : ∀ g, own' g = .page ∨ own' g = .free → ∀ o < 4096, s'.mem (g + o) = s.mem (g + o) := by
    intro g hg
    rcases hg with hg | hg <;> exact hnew.mem g (by simp [hg]) (by simp [hg, Kind.structural])
  have hpage : ∀ g, own g = .page → own' g = .page := fun g hg => by rw [hnew.kinds g (by simp [hg]), hg]
  have htranslate : ∀ q, UserPage q → q ≠ p → ∀ o < 4096,
      s'.translate (q * 4096 + o) = s.translate (q * 4096 + o) := by
    intro q hq hqp o ho
    rw [vaddr_page]
    exact hnew.others _ _ o hq.entry.2 (Nat.mod_lt q (by decide)) ho (by omega)
  have hother : ∀ q, q ≠ p → ∀ o < 4096, clearPage p img (q * 4096 + o) = img (q * 4096 + o) := by
    intro q hqp o ho
    exact if_neg (by omega)
  refine ⟨f, own', h.laid₀, hnew.laid, ?_, hnew.cr3.trans h.cr3, fun g hg => h.free g (hsub g hg), ?_, ?_,
    ?_, ?_, ?_, ?_, ?_⟩
  · intro g hg
    have hkind := h.kinds g hg
    rw [hnew.kinds g (by rwa [hkind]), hkind]
  · intro g hg o ho
    rw [hmem g (.inr (hnew.laid.free_of_mem hg)) o ho]
    exact h.unread g (hsub g hg) o ho
  · intro q g hq
    rcases update_eq_some.mp hq with ⟨rfl, rfl⟩ | ⟨-, hq⟩
    · exact ⟨hp, hnew.page, h.free f hf⟩
    · obtain ⟨huser, hg, hg₀⟩ := h.taken q g hq
      exact ⟨huser, hpage g hg, hg₀⟩
  · have hne : ∀ q, fresh q ≠ some f := fun q hq =>
      Laid.ne_of_own (h.taken q f hq).2.1 hnew.fresh (by simp) rfl
    intro q r g hq hr
    rcases update_eq_some.mp hq with ⟨rfl, rfl⟩ | ⟨-, hq⟩
    · rcases update_eq_some.mp hr with ⟨rfl, -⟩ | ⟨-, hr⟩
      · rfl
      · exact absurd hr (hne r)
    · rcases update_eq_some.mp hr with ⟨-, rfl⟩ | ⟨-, hr⟩
      · exact absurd hq (hne q)
      · exact h.inj q r g hq hr
  · intro q g hq o ho
    rcases update_eq_some.mp hq with ⟨rfl, rfl⟩ | ⟨hqp, hq⟩
    · rw [vaddr_page]
      exact hnew.maps o ho
    · rw [htranslate q (h.taken q g hq).1 hqp o ho]
      exact h.maps q g hq o ho
  · intro q hq hold o ho
    obtain ⟨hqp, hold⟩ := update_eq_none.mp hold
    rw [htranslate q hq hqp o ho]
    exact h.old q hq hold o ho
  · intro q g hq o ho
    rcases update_eq_some.mp hq with ⟨rfl, rfl⟩ | ⟨hqp, hq⟩
    · have hclear : clearPage q img (q * 4096 + o) = none := if_pos (by omega)
      rw [hclear, hmem f (.inl hnew.page) o ho]
      exact h.unread f hf o ho
    · rw [hother q hqp o ho, hmem g (.inl (hpage g (h.taken q g hq).2.1)) o ho]
      exact h.bytes q g hq o ho
  · intro q hq hold o ho b hb
    obtain ⟨hqp, hold⟩ := update_eq_none.mp hold
    rw [hother q hqp o ho] at hb
    obtain ⟨hb₀, hread⟩ := h.zeros q hq hold o ho b hb
    refine ⟨hb₀, ?_⟩
    unfold Vm.read8 at hread ⊢
    rw [htranslate q hq hqp o ho]
    obtain ⟨a, ha, hbyte⟩ := Option.map_eq_some_iff.mp hread
    obtain ⟨g, -, hg, rfl⟩ := h.old_frame hq hold ho ha
    rw [ha, Option.map_some, hmem g (.inl (hpage g hg)) o ho, hbyte]

/-- A byte is stored to a page. Only pages that have been allocated get others than zeros. -/
theorem store (h : Loading own₀ s₀ img fresh own s) (hp : UserPage p) (ho : o < 4096) {b : UInt8}
    (hb : fresh p = none → b = 0) (hs : s.write8 (p * 4096 + o) b = some s') :
    Loading own₀ s₀ (Function.update img (p * 4096 + o) (some b)) fresh own s' := by
  obtain ⟨a, ha, rfl⟩ := Option.map_eq_some_iff.mp hs
  obtain ⟨g, hg, rfl⟩ := translate_user h.laid hp ho ha
  have hlaid := storeByte_laid h.laid hg ho b
  have htranslate := fun q hq o' ho' => storeByte_translate (p := q) (o := o') h.laid hg ho b hq ho'
  have himg : ∀ q o', o' < 4096 → (q ≠ p ∨ o' ≠ o) →
      Function.update img (p * 4096 + o) (some b) (q * 4096 + o') = img (q * 4096 + o') := by
    intro q o' ho' hqo
    exact Function.update_of_ne (by omega) _ _
  refine ⟨h.laid₀, hlaid, h.kinds, h.cr3, h.free, ?_, h.taken, h.inj, ?_, ?_, ?_, ?_⟩
  · intro f hf o' ho'
    have hfree := h.laid.free_of_mem hf
    have hne : f + o' ≠ g + o := fun heq => Laid.ne_of_own hfree hg (by simp)
      (frame_inj h.laid (by simp [hfree]) (by simp [hg]) ho' ho heq).1
    exact (Function.update_of_ne hne _ _).trans (h.unread f hf o' ho')
  · intro q f hq o' ho'
    rw [htranslate q (h.taken q f hq).1 o' ho']
    exact h.maps q f hq o' ho'
  · intro q hq hold o' ho'
    rw [htranslate q hq o' ho']
    exact h.old q hq hold o' ho'
  · intro q f hq o' ho'
    by_cases hsame : q = p ∧ o' = o
    · obtain ⟨rfl, rfl⟩ := hsame
      have hfg : f + o' = g + o' := Option.some.inj ((h.maps q f hq o' ho').symm.trans ha)
      simp [hfg]
    · have hne := h.fresh_byte_ne hq ho' hp ho ha fun hqp ho => hsame ⟨hqp, ho⟩
      rw [himg q o' ho' (by omega)]
      exact (Function.update_of_ne hne _ _).trans (h.bytes q f hq o' ho')
  · intro q hq hold o' ho' c hc
    have hread : ∀ a', s.translate (q * 4096 + o') = some a' →
        Vm.read8 { s with mem := Function.update s.mem (g + o) b } (q * 4096 + o') =
          some (Function.update s.mem (g + o) b a') := by
      intro a' ha'
      unfold Vm.read8
      rw [htranslate q hq o' ho', ha', Option.map_some]
    by_cases hsame : q = p ∧ o' = o
    · obtain ⟨rfl, rfl⟩ := hsame
      rw [Function.update_self, Option.some.injEq] at hc
      refine ⟨by rw [← hc, hb hold], ?_⟩
      rw [hread _ ha, Function.update_self, hb hold]
    · rw [himg q o' ho' (by omega)] at hc
      obtain ⟨hc₀, hold'⟩ := h.zeros q hq hold o' ho' c hc
      refine ⟨hc₀, ?_⟩
      obtain ⟨a', ha', hbyte⟩ := Option.map_eq_some_iff.mp hold'
      rw [hread a' ha']
      by_cases haa : a' = g + o
      · -- another address of the same byte: the page stored to was there before, too
        rw [haa, Function.update_self]
        cases hfp : fresh p with
        | none => rw [hb hfp]
        | some f =>
            have hmaps : g + o = f + o := Option.some.inj (ha.symm.trans (h.maps p f hfp o ho))
            exact absurd (hmaps.symm.trans haa.symm) (h.fresh_ne_old hfp ho hq hold ho' ha')
      · rw [Function.update_of_ne haa, hbyte]

end Loading

end SRos.Elf
