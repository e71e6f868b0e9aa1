import Mathlib.Algebra.Order.BigOperators.Group.List
import Mathlib.Algebra.Order.Ring.Nat
import SRos.Paging.Translate

/-!
# Cloning an address space

`paging_clone_directory` reads the old tables through the window of the self-map and writes the
new frames through the identity map. All it writes are frames popped from the allocator, and
none of these is part of the tables in use, so both windows show the same memory throughout.
-/

namespace SRos.Paging

open Bytes Loop

/-- What the clone relies on: a self-map, a directory and user pages that are mapped to
themselves, and free frames that are mapped to themselves, pairwise distinct, and neither the
directory nor one of its tables nor the target of a user page. -/
structure Cloneable (s : Vm) : Prop where
  cr3 : s.cr3 % 4096 = 0 ∧ s.cr3 < 2 ^ 32
  self : present (pdeAt s.mem s.cr3 1023) = true ∧ frameOf (pdeAt s.mem s.cr3 1023) = s.cr3
  dir : Ident s s.cr3
  pages : ∀ i j, i < 1023 → j < 1024 → mapped s.mem s.cr3 i j = true →
    user (pteAt s.mem s.cr3 i j) = true → Ident s (frameOf (pteAt s.mem s.cr3 i j))
  aligned : ∀ f ∈ s.free, f % 4096 = 0 ∧ f < 2 ^ 32
  nodup : s.free.Nodup
  ident : ∀ f ∈ s.free, Ident s f
  notDir : s.cr3 ∉ s.free
  notTable : ∀ i, i < 1023 → present (pdeAt s.mem s.cr3 i) = true →
    frameOf (pdeAt s.mem s.cr3 i) ∉ s.free
  notPage : ∀ i j, i < 1023 → j < 1024 → mapped s.mem s.cr3 i j = true →
    user (pteAt s.mem s.cr3 i j) = true → frameOf (pteAt s.mem s.cr3 i j) ∉ s.free

/-! ## The state during the clone -/

/-- Nothing but free frames of `s₀` has been written. -/
structure Working (s₀ s : Vm) : Prop where
  cr3 : s.cr3 = s₀.cr3
  mem : AgreeOff s₀.free s₀.mem s.mem

section Working

variable {s₀ s : Vm} (h₀ : Cloneable s₀)

include h₀

theorem Cloneable.frame_aligned : ∀ f ∈ s₀.free, f % 4096 = 0 := fun f hf => (h₀.aligned f hf).1

theorem Cloneable.cr3_frame : frameOf s₀.cr3 = s₀.cr3 := frameOf_self h₀.cr3.1 h₀.cr3.2

theorem Working.pdeAt (h : Working s₀ s) {i : Nat} (hi : i < 1024) :
    Paging.pdeAt s.mem s₀.cr3 i = Paging.pdeAt s₀.mem s₀.cr3 i :=
  h.mem.word h₀.frame_aligned h₀.cr3.1 h₀.notDir (by omega)

theorem Working.pteAt (h : Working s₀ s) {i j : Nat} (hi : i < 1024) (hj : j < 1024)
    (hpde : present (Paging.pdeAt s₀.mem s₀.cr3 i) = true) :
    Paging.pteAt s.mem s₀.cr3 i j = Paging.pteAt s₀.mem s₀.cr3 i j := by
  unfold Paging.pteAt
  rw [h.pdeAt h₀ hi]
  have hnot : frameOf (Paging.pdeAt s₀.mem s₀.cr3 i) ∉ s₀.free := by
    by_cases hlast : i = 1023
    · rw [hlast, h₀.self.2]
      exact h₀.notDir
    · exact h₀.notTable i (by omega) hpde
  exact h.mem.word h₀.frame_aligned (frameOf_aligned (pdeAt_lt _ _ _)).1 hnot (by omega)

/-- The translation does not change. -/
theorem Working.translate (h : Working s₀ s) {v : Nat} (hv : v < 2 ^ 32) :
    s.translate v = s₀.translate v := by
  obtain ⟨i, j, o, hi, hj, ho, rfl⟩ : ∃ i j o, i < 1024 ∧ j < 1024 ∧ o < 4096 ∧
      v = i * 2 ^ 22 + j * 2 ^ 12 + o :=
    ⟨v / 2 ^ 22, v / 2 ^ 12 % 1024, v % 4096, by omega, by omega, by omega, vaddr_eq v⟩
  have hcr3 : frameOf s.cr3 = s.cr3 := by
    rw [h.cr3]
    exact h₀.cr3_frame
  have hpde := h.pdeAt h₀ hi
  rw [translate_split hcr3 hj ho, translate_split h₀.cr3_frame hj ho, h.cr3]
  unfold mapped
  rw [hpde]
  by_cases hpresent : present (Paging.pdeAt s₀.mem s₀.cr3 i) = true
  · rw [h.pteAt h₀ hi hj hpresent]
  · simp [hpresent]

theorem Working.ident (h : Working s₀ s) {f o : Nat} (hf : f % 4096 = 0 ∧ f < 2 ^ 32)
    (hident : Ident s₀ f) (ho : o < 4096) : s.translate (f + o) = some (f + o) := by
  rw [h.translate h₀ (by omega)]
  exact hident o ho

/-- Reading an entry of the directory in use. -/
theorem Working.readPde (h : Working s₀ s) {i : Nat} (hi : i < 1024) :
    s.read32 (s.cr3 + 4 * i) = some (Paging.pdeAt s₀.mem s₀.cr3 i) := by
  unfold Vm.read32
  rw [h.cr3, h.ident h₀ h₀.cr3 h₀.dir (by omega), Option.map_some]
  exact congrArg some (h.pdeAt h₀ hi)

/-- Reading an entry of a table in use through the window of the self-map. -/
theorem Working.readPte (h : Working s₀ s) {i j : Nat} (hi : i < 1024) (hj : j < 1024)
    (hpde : present (Paging.pdeAt s₀.mem s₀.cr3 i) = true) :
    s.read32 (selfMap i + 4 * j) = some (Paging.pteAt s₀.mem s₀.cr3 i j) := by
  have haddr : selfMap i + 4 * j = 1023 * 2 ^ 22 + i * 2 ^ 12 + 4 * j := by
    unfold selfMap
    omega
  have hself : Paging.pteAt s₀.mem s₀.cr3 1023 i = Paging.pdeAt s₀.mem s₀.cr3 i := by
    unfold Paging.pteAt
    rw [h₀.self.2]
    rfl
  have htranslate : s.translate (selfMap i + 4 * j) =
      some (frameOf (Paging.pdeAt s₀.mem s₀.cr3 i) + 4 * j) := by
    rw [h.translate h₀ (by unfold selfMap; omega), haddr,
      translate_split h₀.cr3_frame hi (by omega), hself]
    simp [mapped, hself, h₀.self.1, hpde]
  unfold Vm.read32
  rw [htranslate, Option.map_some]
  have hpte := h.pteAt h₀ hi hj hpde
  unfold Paging.pteAt at hpte
  rw [h.pdeAt h₀ hi] at hpte
  exact congrArg some hpte

/-- Writing a word of a free frame. -/
theorem Working.write (h : Working s₀ s) {f o : Nat} (hf : f ∈ s₀.free) (ho : o + 4 ≤ 4096)
    (x : Nat) : s.write32 (f + o) x = some { s with mem := store32 s.mem (f + o) x } := by
  unfold Vm.write32
  rw [h.ident h₀ (h₀.aligned f hf) (h₀.ident f hf) (by omega), Option.map_some]

omit h₀ in
theorem Working.stored (h : Working s₀ s) {f o : Nat} (hf : f ∈ s₀.free) (ho : o + 4 ≤ 4096)
    (x : Nat) : Working s₀ { s with mem := store32 s.mem (f + o) x } :=
  ⟨h.cr3, h.mem.trans (.store32 hf ho)⟩

/-- Copying a page that is mapped to itself into a free frame. -/
theorem Working.memcpy (h : Working s₀ s) {f g : Nat} (hf : f ∈ s₀.free)
    (hg : g % 4096 = 0 ∧ g < 2 ^ 32) (hident : Ident s₀ g) (hnot : g ∉ s₀.free) :
    s.memcpy f g 4096 =
      some { s with mem := splice s.mem f 4096 fun i => s₀.mem (g + i) } := by
  obtain ⟨s', hs', rfl⟩ := foldlM_range
    (f := fun s i => do
      let b ← s.read8 (g + i)
      s.write8 (f + i) b)
    (fun k t => t = { s with mem := splice s.mem f k fun i => s₀.mem (g + i) }) (n := 4096) (s := s)
    (by simp) (by
      intro k t hk ht
      have hwork : Working s₀ t := by
        subst ht
        refine ⟨h.cr3, h.mem.trans fun a ha => ?_⟩
        have hout := ha f hf
        dsimp only
        exact splice_outside (by omega)
      have hread : t.read8 (g + k) = some (s₀.mem (g + k)) := by
        unfold Vm.read8
        rw [hwork.ident h₀ hg hident hk, Option.map_some,
          hwork.mem.byte h₀.frame_aligned hg.1 hnot hk]
      have hwrite : t.write8 (f + k) (s₀.mem (g + k)) =
          some { t with mem := Function.update t.mem (f + k) (s₀.mem (g + k)) } := by
        unfold Vm.write8
        rw [hwork.ident h₀ (h₀.aligned f hf) (h₀.ident f hf) hk, Option.map_some]
      refine ⟨_, by rw [hread]; exact hwrite, ?_⟩
      subst ht
      rw [@splice_succ s.mem f k fun i => s₀.mem (g + i)])
  exact hs'

/-- Clearing a table in a free frame. -/
theorem Working.clearTable (h : Working s₀ s) {f : Nat} (hf : f ∈ s₀.free) :
    ∃ s', Paging.clearTable f s = some s' ∧ Working s₀ s' ∧ s'.free = s.free ∧
      AgreeOff [f] s.mem s'.mem ∧ ∀ j < 1024, load32 s'.mem (f + 4 * j) = 0 := by
  apply foldlM_range fun k t => Working s₀ t ∧ t.free = s.free ∧ AgreeOff [f] s.mem t.mem ∧
    ∀ j < k, load32 t.mem (f + 4 * j) = 0
  · exact ⟨h, rfl, .refl _ _, by omega⟩
  · intro k t hk ⟨hwork, hfree, hmem, hzero⟩
    refine ⟨_, hwork.write h₀ hf (by omega) 0, hwork.stored hf (by omega) 0, hfree,
      hmem.trans (.store32 (by simp) (by omega)), ?_⟩
    intro j hj
    by_cases hjk : j = k
    · rw [hjk]
      exact load32_store32_same _ _ (by decide)
    · rw [load32_store32_ne (by omega)]
      exact hzero j (by omega)

end Working

/-! ## One table -/

/-- What a frame has been popped for. -/
inductive Use where
  | dir
  | table (pdIdx : Nat)
  | page (pdIdx ptIdx : Nat)
  deriving DecidableEq

/-- The copying loops give this page a frame of its own. -/
def copies (keep : Nat → Bool) (s₀ : Vm) (i j : Nat) : Bool :=
  present (pteAt s₀.mem s₀.cr3 i j) && !keep (pageVaddr i j) && user (pteAt s₀.mem s₀.cr3 i j)

/-- Entry `j` of the new table at `t` is what it should be. -/
structure PteDone (keep : Nat → Bool) (s₀ : Vm) (i t : Nat) (log : List (Use × Nat))
    (m : Nat → UInt8) (j : Nat) : Prop where
  absent : present (pteAt s₀.mem s₀.cr3 i j) = false → load32 m (t + 4 * j) = 0
  shared : present (pteAt s₀.mem s₀.cr3 i j) = true → copies keep s₀ i j = false →
    load32 m (t + 4 * j) = pteAt s₀.mem s₀.cr3 i j
  copied : copies keep s₀ i j = true → ∃ f, (Use.page i j, f) ∈ log ∧
    load32 m (t + 4 * j) = f ||| flagsOf (pteAt s₀.mem s₀.cr3 i j) ∧
    ∀ o < 4096, m (f + o) = s₀.mem (frameOf (pteAt s₀.mem s₀.cr3 i j) + o)

section Table

variable {keep : Nat → Bool} {s₀ s : Vm} {i t : Nat} {log log' : List (Use × Nat)}
  {m m' : Nat → UInt8} {j : Nat}

/-- Later stores to other places and later pops keep a finished entry. -/
theorem PteDone.mono (h : PteDone keep s₀ i t log m j)
    (hword : load32 m' (t + 4 * j) = load32 m (t + 4 * j))
    (hpages : ∀ x ∈ log, ∀ o < 4096, m' (x.2 + o) = m (x.2 + o)) (hlog : ∀ x ∈ log, x ∈ log') :
    PteDone keep s₀ i t log' m' j where
  absent := fun hp => hword.trans (h.absent hp)
  shared := fun hp hc => hword.trans (h.shared hp hc)
  copied := by
    intro hc
    obtain ⟨f, hmem, hw, hbytes⟩ := h.copied hc
    exact ⟨f, hlog _ hmem, hword.trans hw, fun o ho => (hpages _ hmem o ho).trans (hbytes o ho)⟩

/-- The state of the copying loop in front of round `n`, when it started from `s`. -/
structure PteLoop (keep : Nat → Bool) (s₀ s : Vm) (i t : Nat) (n : Nat) (s' : Vm)
    (log : List (Use × Nat)) : Prop where
  work : Working s₀ s'
  pops : s.free = log.map Prod.snd ++ s'.free
  mem : AgreeOff (t :: log.map Prod.snd) s.mem s'.mem
  len : log.length = (List.range n).countP (copies keep s₀ i)
  done : ∀ j < n, PteDone keep s₀ i t log s'.mem j
  rest : ∀ j, n ≤ j → j < 1024 → load32 s'.mem (t + 4 * j) = 0

theorem PteLoop.advance {n : Nat} {s' s'' : Vm} (h : PteLoop keep s₀ s i t n s' log)
    (hwork : Working s₀ s'') (hpops : s.free = log'.map Prod.snd ++ s''.free)
    (hmem : AgreeOff (t :: log'.map Prod.snd) s.mem s''.mem)
    (hlen : log'.length = (List.range (n + 1)).countP (copies keep s₀ i))
    (hlog : ∀ x ∈ log, x ∈ log')
    (hwords : ∀ j, j < 1024 → j ≠ n → load32 s''.mem (t + 4 * j) = load32 s'.mem (t + 4 * j))
    (hpages : ∀ x ∈ log, ∀ o < 4096, s''.mem (x.2 + o) = s'.mem (x.2 + o))
    (hdone : PteDone keep s₀ i t log' s''.mem n) (hn : n < 1024) :
    PteLoop keep s₀ s i t (n + 1) s'' log' where
  work := hwork
  pops := hpops
  mem := hmem
  len := hlen
  done := by
    intro j hj
    by_cases hjn : j = n
    · rw [hjn]
      exact hdone
    · exact (h.done j (by omega)).mono (hwords j (by omega) hjn) hpages hlog
  rest := by
    intro j hj hj'
    rw [hwords j hj' (by omega)]
    exact h.rest j (by omega) hj'

/-- The frames of a state of the loop are apart from each other. -/
theorem PteLoop.apart {n : Nat} {s' : Vm}
    (h : PteLoop keep s₀ s i t n s' log) (hsub : ∀ f ∈ s.free, f ∈ s₀.free)
    (hnd : (t :: s.free).Nodup) :
    (∀ x ∈ log, x.2 ∈ s₀.free ∧ x.2 ≠ t) ∧
      ∀ f ∈ s'.free, f ∈ s₀.free ∧ f ≠ t ∧ ∀ x ∈ log, x.2 ≠ f := by
  have hfree := h.pops
  rw [hfree] at hnd hsub
  obtain ⟨hnot, hnd'⟩ := List.nodup_cons.mp hnd
  have hdisj := (List.nodup_append.mp hnd').2.2
  constructor
  · intro x hx
    have hmem : x.2 ∈ log.map Prod.snd := List.mem_map_of_mem hx
    exact ⟨hsub _ (List.mem_append_left _ hmem), fun he => hnot (by simp [← he, hmem])⟩
  · intro f hf
    refine ⟨hsub _ (List.mem_append_right _ hf), fun he => hnot (by simp [← he, hf]), ?_⟩
    intro x hx
    exact hdisj _ (List.mem_map_of_mem hx) _ hf

/-- A store to entry `n` changes no other entry and no frame that has been copied. -/
theorem PteLoop.stored {n : Nat} {s' : Vm} (h₀ : Cloneable s₀)
    (h : PteLoop keep s₀ s i t n s' log) (hsub : ∀ f ∈ s.free, f ∈ s₀.free) (ht : t ∈ s₀.free)
    (hnd : (t :: s.free).Nodup) (hn : n < 1024) (hc : copies keep s₀ i n = false) (x : Nat)
    (hdone : PteDone keep s₀ i t log (store32 s'.mem (t + 4 * n) x) n) :
    PteLoop keep s₀ s i t (n + 1) { s' with mem := store32 s'.mem (t + 4 * n) x } log := by
  apply h.advance (h.work.stored ht (by omega) x) h.pops (h.mem.trans (.store32 (by simp) (by omega)))
    _ (fun _ hx => hx) _ _ hdone hn
  · rw [h.len, List.range_succ, List.countP_append]
    simp [hc]
  · intro j hj hjn
    exact load32_store32_ne (by omega)
  · intro y hy o ho
    have hfree := (h.apart hsub hnd).1 y hy
    have ht' := h₀.frame_aligned t ht
    have hy' := h₀.frame_aligned y.2 hfree.1
    exact store32_of_outside (by omega)

/-- A page is copied to the frame on top of the stack. -/
theorem PteLoop.copied {n : Nat} {s' : Vm} {f : Nat} {fs : List Nat} (h₀ : Cloneable s₀)
    (h : PteLoop keep s₀ s i t n s' log) (hsub : ∀ f ∈ s.free, f ∈ s₀.free) (ht : t ∈ s₀.free)
    (hnd : (t :: s.free).Nodup) (hi : i < 1023)
    (hpde : present (pdeAt s₀.mem s₀.cr3 i) = true) (hn : n < 1024)
    (hc : copies keep s₀ i n = true) (hfree : s'.free = f :: fs) :
    ∃ s₁ s₂, Vm.memcpy { s' with free := fs } f (frameOf (pteAt s₀.mem s₀.cr3 i n)) 4096 =
        some s₁ ∧
      s₁.write32 (t + 4 * n) (frameOf f ||| flagsOf (pteAt s₀.mem s₀.cr3 i n)) = some s₂ ∧
      PteLoop keep s₀ s i t (n + 1) s₂ (log ++ [(.page i n, f)]) := by
  obtain ⟨hlogged, hfresh⟩ := h.apart hsub hnd
  obtain ⟨hf₀, hft, hflog⟩ := hfresh f (by simp [hfree])
  have hcopied := hc
  simp only [copies, Bool.and_eq_true] at hcopied
  obtain ⟨⟨hpresent, -⟩, huser⟩ := hcopied
  have hmapped : mapped s₀.mem s₀.cr3 i n = true := mapped_iff.mpr ⟨hpde, hpresent⟩
  have hwork₀ : Working s₀ { s' with free := fs } := ⟨h.work.cr3, h.work.mem⟩
  have hlt := pteAt_lt s₀.mem s₀.cr3 i n
  have hident := h₀.pages i n hi hn hmapped huser
  have hnot := h₀.notPage i n hi hn hmapped huser
  generalize hpte : pteAt s₀.mem s₀.cr3 i n = pte at *
  have hcopy := hwork₀.memcpy h₀ hf₀ (frameOf_aligned hlt) hident hnot
  let m₁ := splice s'.mem f 4096 fun o => s₀.mem (frameOf pte + o)
  have hagree : AgreeOff [f] s'.mem m₁ := .splice (by simp) _
  have hagree₀ : AgreeOff s₀.free s'.mem m₁ := .splice hf₀ _
  have hwork₁ : Working s₀ { s' with free := fs, mem := m₁ } :=
    ⟨h.work.cr3, h.work.mem.trans hagree₀⟩
  have haligned := h₀.aligned f hf₀
  have halignedt := h₀.aligned t ht
  rw [frameOf_self haligned.1 haligned.2]
  have hwrite := hwork₁.write h₀ ht (show 4 * n + 4 ≤ 4096 by omega) (f ||| flagsOf pte)
  let m₂ := store32 m₁ (t + 4 * n) (f ||| flagsOf pte)
  have hother : ∀ g, g % 4096 = 0 → g ≠ t → ∀ o < 4096, m₂ (g + o) = m₁ (g + o) := by
    intro g hg hne o ho
    exact store32_of_outside (by omega)
  have hnotf : ∀ g, g % 4096 = 0 → g ≠ f → ∀ o < 4096, m₁ (g + o) = s'.mem (g + o) := by
    intro g hg hne o ho
    exact hagree.byte (by simpa using haligned.1) hg (by simpa using hne) ho
  have hwords : ∀ j, j < 1024 → j ≠ n →
      load32 m₂ (t + 4 * j) = load32 s'.mem (t + 4 * j) := by
    intro j hj hjn
    have hstore : load32 m₂ (t + 4 * j) = load32 m₁ (t + 4 * j) := load32_store32_ne (by omega)
    rw [hstore]
    exact hagree.word (by simpa using haligned.1) halignedt.1 (by simpa using Ne.symm hft) (by omega)
  have hpages : ∀ x ∈ log, ∀ o < 4096, m₂ (x.2 + o) = s'.mem (x.2 + o) := by
    intro x hx o ho
    obtain ⟨hx₀, hxt⟩ := hlogged x hx
    have halignedx := h₀.frame_aligned x.2 hx₀
    exact (hother x.2 halignedx hxt o ho).trans (hnotf x.2 halignedx (hflog x hx) o ho)
  have hdone : PteDone keep s₀ i t (log ++ [(.page i n, f)]) m₂ n := by
    refine ⟨by simp [hpte, hpresent], by simp [hc], fun _ => ⟨f, by simp, ?_, ?_⟩⟩
    · rw [hpte]
      exact load32_store32_same _ _ (or_lt haligned.1 haligned.2 (flagsOf_lt _))
    · intro o ho
      rw [hpte, hother f haligned.1 hft o ho]
      exact splice_inside ho
  have hmem : AgreeOff (t :: (log ++ [(Use.page i n, f)]).map Prod.snd) s.mem m₂ := by
    refine AgreeOff.trans (h.mem.mono ?_) (AgreeOff.trans (hagree.mono ?_)
      (AgreeOff.store32 (by simp) (by omega)))
    · intro g hg
      rcases List.mem_cons.mp hg with hg | hg
      · exact List.mem_cons.mpr (.inl hg)
      · simp only [List.map_append, List.mem_cons, List.mem_append]
        exact .inr (.inl hg)
    · simp
  refine ⟨{ s' with free := fs, mem := m₁ }, { s' with free := fs, mem := m₂ }, hcopy, hwrite, ?_⟩
  apply h.advance (hwork₁.stored ht (by omega) _) _ hmem _ _ hwords hpages hdone hn
  · simp [h.pops, hfree]
  · rw [List.length_append, h.len, List.range_succ, List.countP_append]
    simp [hc]
  · exact fun x hx => by simp [hx]

/-- In front of a page to copy, the loop has popped fewer frames than it needs. -/
theorem PteLoop.len_lt {n : Nat} {s' : Vm} (h : PteLoop keep s₀ s i t n s' log) (hn : n < 1024)
    (hc : copies keep s₀ i n = true) :
    log.length < (List.range 1024).countP (copies keep s₀ i) := by
  have hcount : (List.range (n + 1)).countP (copies keep s₀ i) ≤
      (List.range 1024).countP (copies keep s₀ i) :=
    (List.range_sublist.mpr (by omega)).countP_le
  rw [List.range_succ, List.countP_append] at hcount
  simp only [List.countP_singleton, hc, if_true, ← h.len] at hcount
  omega

/-- One round of the copying loop. It fails only if it finds no free frame. -/
theorem PteLoop.step {n : Nat} {s' : Vm} (h₀ : Cloneable s₀)
    (h : PteLoop keep s₀ s i t n s' log) (hsub : ∀ f ∈ s.free, f ∈ s₀.free) (ht : t ∈ s₀.free)
    (hnd : (t :: s.free).Nodup) (hi : i < 1023)
    (hpde : present (pdeAt s₀.mem s₀.cr3 i) = true) (hn : n < 1024) :
    (∃ s'' log', clonePte keep i t s' n = some s'' ∧ PteLoop keep s₀ s i t (n + 1) s'' log') ∨
      (clonePte keep i t s' n = none ∧
        s.free.length < (List.range 1024).countP (copies keep s₀ i)) := by
  have hread := h.work.readPte h₀ (by omega) hn hpde
  have hwrite := h.work.write h₀ ht (show 4 * n + 4 ≤ 4096 by omega)
  have hzero := h.rest n le_rfl hn
  have hlt := pteAt_lt s₀.mem s₀.cr3 i n
  unfold clonePte
  simp only [hread, Option.bind_eq_bind, Option.bind_some]
  generalize hpte : pteAt s₀.mem s₀.cr3 i n = pte at hlt
  cases hpresent : present pte with
  | false =>
      have hc : copies keep s₀ i n = false := by simp [copies, hpte, hpresent]
      refine .inl ⟨s', log, rfl, h.advance h.work h.pops h.mem ?_ (fun _ hx => hx)
        (fun _ _ _ => rfl) (fun _ _ _ _ => rfl) ?_ hn⟩
      · rw [h.len, List.range_succ, List.countP_append]
        simp [hc]
      · exact ⟨fun _ => hzero, by simp [hpte, hpresent], by simp [hc]⟩
  | true =>
      have hshare : copies keep s₀ i n = false →
          ∃ s'' log', s'.write32 (t + 4 * n) pte = some s'' ∧
            PteLoop keep s₀ s i t (n + 1) s'' log' := by
        intro hc
        refine ⟨_, log, hwrite pte, h.stored h₀ hsub ht hnd hn hc pte ?_⟩
        refine ⟨by simp [hpte, hpresent], fun _ _ => ?_, by simp [hc]⟩
        rw [load32_store32_same _ _ hlt, hpte]
      simp only [Bool.not_true, Bool.false_eq_true, if_false]
      cases hkeep : keep (pageVaddr i n) with
      | true => exact .inl (by simpa using hshare (by simp [copies, hkeep]))
      | false =>
          cases huser : user pte with
          | false => exact .inl (by simpa using hshare (by simp [copies, hpte, huser]))
          | true =>
              have hc : copies keep s₀ i n = true := by simp [copies, hpte, hpresent, hkeep, huser]
              cases hfree : s'.free with
              | nil =>
                  have hpops := congrArg List.length h.pops
                  rw [hfree, List.append_nil, List.length_map] at hpops
                  have hlt := h.len_lt hn hc
                  exact .inr ⟨by simp [pfaAlloc, hfree], by omega⟩
              | cons f fs =>
                  obtain ⟨s₁, s₂, hcopy, hwrite', hloop⟩ :=
                    h.copied h₀ hsub ht hnd hi hpde hn hc hfree
                  rw [hpte] at hcopy hwrite'
                  exact .inl ⟨s₂, _, by simp [pfaAlloc, hfree, hcopy, hwrite'], hloop⟩

/-- The whole copying loop. -/
theorem PteLoop.run (h₀ : Cloneable s₀) (hwork : Working s₀ s)
    (hsub : ∀ f ∈ s.free, f ∈ s₀.free) (ht : t ∈ s₀.free) (hnd : (t :: s.free).Nodup)
    (hi : i < 1023) (hpde : present (pdeAt s₀.mem s₀.cr3 i) = true)
    (hzero : ∀ j < 1024, load32 s.mem (t + 4 * j) = 0) :
    (∃ s', (List.range 1024).foldlM (clonePte keep i t) s = some s' ∧
      ∃ log, PteLoop keep s₀ s i t 1024 s' log) ∨
      ((List.range 1024).foldlM (clonePte keep i t) s = none ∧
        s.free.length < (List.range 1024).countP (copies keep s₀ i)) := by
  apply foldlM_range_or fun n s' => ∃ log, PteLoop keep s₀ s i t n s' log
  · exact ⟨[], hwork, rfl, .refl _ _, rfl, fun j hj => by omega, fun j _ hj => hzero j hj⟩
  · intro n s' hn ⟨log, hloop⟩
    rcases hloop.step h₀ hsub ht hnd hi hpde hn with ⟨s'', log', hs'', hloop'⟩ | hstuck
    · exact .inl ⟨s'', hs'', log', hloop'⟩
    · exact .inr hstuck

end Table

/-! ## The directory -/

/-- Where the copying loop of entry `i` shares pages. -/
def keepOf (kernelEnd i : Nat) : Nat → Bool :=
  if i ≤ 1 then inKernel kernelEnd else fun v => v < 0x800000

/-- Entry `i` gets a table of its own. -/
def deep (kernelEnd : Nat) (s₀ : Vm) (i : Nat) : Bool :=
  present (pdeAt s₀.mem s₀.cr3 i) &&
    if i ≤ 1 then
      (List.range 1024).any fun j => present (pteAt s₀.mem s₀.cr3 i j) &&
        user (pteAt s₀.mem s₀.cr3 i j) && !inKernel kernelEnd (pageVaddr i j)
    else user (pdeAt s₀.mem s₀.cr3 i)

/-- The frames that entry `i` needs. -/
def framesForPde (kernelEnd : Nat) (s₀ : Vm) (i : Nat) : Nat :=
  if deep kernelEnd s₀ i then 1 + (List.range 1024).countP (copies (keepOf kernelEnd i) s₀ i)
  else 0

/-- The frames that the clone needs. -/
def framesForClone (kernelEnd : Nat) (s₀ : Vm) : Nat :=
  1 + ((List.range 1023).map (framesForPde kernelEnd s₀)).sum

/-- Entry `i` of the new directory at `d` is what it should be. -/
structure PdeDone (kernelEnd : Nat) (s₀ : Vm) (d : Nat) (log : List (Use × Nat))
    (m : Nat → UInt8) (i : Nat) : Prop where
  absent : present (pdeAt s₀.mem s₀.cr3 i) = false → load32 m (d + 4 * i) = 0
  shared : present (pdeAt s₀.mem s₀.cr3 i) = true → deep kernelEnd s₀ i = false →
    load32 m (d + 4 * i) = pdeAt s₀.mem s₀.cr3 i
  copied : deep kernelEnd s₀ i = true → ∃ t, (Use.table i, t) ∈ log ∧
    load32 m (d + 4 * i) = t ||| flagsOf (pdeAt s₀.mem s₀.cr3 i) ∧
    ∀ j < 1024, PteDone (keepOf kernelEnd i) s₀ i t log m j

section Directory

variable {kernelEnd : Nat} {s₀ s : Vm} {d i : Nat} {log log' : List (Use × Nat)}
  {m m' : Nat → UInt8}

theorem PdeDone.mono (h : PdeDone kernelEnd s₀ d log m i)
    (hword : load32 m' (d + 4 * i) = load32 m (d + 4 * i))
    (hframes : ∀ x ∈ log, ∀ o < 4096, m' (x.2 + o) = m (x.2 + o)) (hlog : ∀ x ∈ log, x ∈ log') :
    PdeDone kernelEnd s₀ d log' m' i where
  absent := fun hp => hword.trans (h.absent hp)
  shared := fun hp hd => hword.trans (h.shared hp hd)
  copied := by
    intro hd
    obtain ⟨t, hmem, hw, hptes⟩ := h.copied hd
    refine ⟨t, hlog _ hmem, hword.trans hw, fun j hj => (hptes j hj).mono ?_ hframes hlog⟩
    apply load32_congr
    intro a ha ha'
    have hbyte := hframes _ hmem (a - t) (by omega)
    rwa [show t + (a - t) = a by omega] at hbyte

/-- The state of the loop over the directory in front of round `n`, when it started from `s`. -/
structure PdeLoop (kernelEnd : Nat) (s₀ s : Vm) (d n : Nat) (s' : Vm) (log : List (Use × Nat)) :
    Prop where
  work : Working s₀ s'
  pops : s.free = log.map Prod.snd ++ s'.free
  len : log.length = ((List.range n).map (framesForPde kernelEnd s₀)).sum
  done : ∀ i < n, PdeDone kernelEnd s₀ d log s'.mem i

theorem PdeLoop.advance {n : Nat} {s' s'' : Vm} (h : PdeLoop kernelEnd s₀ s d n s' log)
    (hwork : Working s₀ s'') (hpops : s.free = log'.map Prod.snd ++ s''.free)
    (hlen : log'.length = log.length + framesForPde kernelEnd s₀ n)
    (hlog : ∀ x ∈ log, x ∈ log')
    (hwords : ∀ i < n, load32 s''.mem (d + 4 * i) = load32 s'.mem (d + 4 * i))
    (hframes : ∀ x ∈ log, ∀ o < 4096, s''.mem (x.2 + o) = s'.mem (x.2 + o))
    (hdone : PdeDone kernelEnd s₀ d log' s''.mem n) :
    PdeLoop kernelEnd s₀ s d (n + 1) s'' log' where
  work := hwork
  pops := hpops
  len := by
    rw [hlen, h.len, List.range_succ]
    simp
  done := by
    intro i hi
    by_cases hin : i = n
    · rw [hin]
      exact hdone
    · exact (h.done i (by omega)).mono (hwords i (by omega)) hframes hlog

theorem PdeLoop.apart {n : Nat} {s' : Vm} (h : PdeLoop kernelEnd s₀ s d n s' log)
    (hsub : ∀ f ∈ s.free, f ∈ s₀.free) (hnd : (d :: s.free).Nodup) :
    (∀ x ∈ log, x.2 ∈ s₀.free ∧ x.2 ≠ d) ∧ s'.free.Nodup ∧
      ∀ f ∈ s'.free, f ∈ s₀.free ∧ f ≠ d ∧ ∀ x ∈ log, x.2 ≠ f := by
  have hfree := h.pops
  rw [hfree] at hnd hsub
  obtain ⟨hnot, hnd'⟩ := List.nodup_cons.mp hnd
  obtain ⟨-, hnd₂, hdisj⟩ := List.nodup_append.mp hnd'
  refine ⟨?_, hnd₂, ?_⟩
  · intro x hx
    have hmem : x.2 ∈ log.map Prod.snd := List.mem_map_of_mem hx
    exact ⟨hsub _ (List.mem_append_left _ hmem), fun he => hnot (by simp [← he, hmem])⟩
  · intro f hf
    refine ⟨hsub _ (List.mem_append_right _ hf), fun he => hnot (by simp [← he, hf]), ?_⟩
    intro x hx
    exact hdisj _ (List.mem_map_of_mem hx) _ hf

/-- An entry that is stored without copying anything. -/
theorem PdeLoop.stored {n : Nat} {s' : Vm} (h₀ : Cloneable s₀)
    (h : PdeLoop kernelEnd s₀ s d n s' log) (hsub : ∀ f ∈ s.free, f ∈ s₀.free) (hd : d ∈ s₀.free)
    (hnd : (d :: s.free).Nodup) (hn : n < 1023) (hshallow : deep kernelEnd s₀ n = false) (x : Nat)
    (hdone : PdeDone kernelEnd s₀ d log (store32 s'.mem (d + 4 * n) x) n) :
    PdeLoop kernelEnd s₀ s d (n + 1) { s' with mem := store32 s'.mem (d + 4 * n) x } log := by
  apply h.advance (h.work.stored hd (by omega) x) h.pops _ (fun _ hx => hx) _ _ hdone
  · simp [framesForPde, hshallow]
  · intro i hi
    exact load32_store32_ne (by omega)
  · intro y hy o ho
    obtain ⟨hy₀, hyd⟩ := (h.apart hsub hnd).1 y hy
    have hd' := h₀.frame_aligned d hd
    have hy' := h₀.frame_aligned y.2 hy₀
    exact store32_of_outside (by omega)

/-- The scan of one of the first two tables. -/
theorem hasUserPagesOutsideKernel_eq {s' : Vm} (h₀ : Cloneable s₀) (h : Working s₀ s') {n : Nat} (hn : n < 1023)
    (hsmall : n ≤ 1) (hpde : present (pdeAt s₀.mem s₀.cr3 n) = true) :
    hasUserPagesOutsideKernel kernelEnd n s' = some (deep kernelEnd s₀ n) := by
  have hdeep : deep kernelEnd s₀ n = (List.range 1024).any fun j =>
      present (pteAt s₀.mem s₀.cr3 n j) && user (pteAt s₀.mem s₀.cr3 n j) &&
        !inKernel kernelEnd (pageVaddr n j) := by
    simp [deep, hpde, hsmall]
  rw [hdeep]
  apply anyM_of_forall
  intro j hj
  rw [h.readPte h₀ (by omega) (List.mem_range.mp hj) hpde]
  rfl

/-- A table that has been copied is entered in the new directory. -/
theorem PdeLoop.entered {n t : Nat} {fs : List Nat} {s' s₁ s₂ : Vm} {log₂ : List (Use × Nat)}
    (h₀ : Cloneable s₀) (h : PdeLoop kernelEnd s₀ s d n s' log)
    (hsub : ∀ f ∈ s.free, f ∈ s₀.free) (hd : d ∈ s₀.free) (hnd : (d :: s.free).Nodup)
    (hn : n < 1023) (hdeep : deep kernelEnd s₀ n = true) (hfree : s'.free = t :: fs)
    (hfree₁ : s₁.free = fs) (hmem₁ : AgreeOff [t] s'.mem s₁.mem)
    (hloop : PteLoop (keepOf kernelEnd n) s₀ s₁ n t 1024 s₂ log₂) :
    ∃ s'', s₂.write32 (d + 4 * n) (frameOf t ||| flagsOf (pdeAt s₀.mem s₀.cr3 n)) = some s'' ∧
      PdeLoop kernelEnd s₀ s d (n + 1) s'' (log ++ (.table n, t) :: log₂) := by
  obtain ⟨hlogged, -, hfresh⟩ := h.apart hsub hnd
  have hused : ∀ f ∈ t :: log₂.map Prod.snd, f ∈ s'.free := by
    intro f hf
    rw [hfree, ← hfree₁, hloop.pops]
    rcases List.mem_cons.mp hf with rfl | hf
    · exact List.mem_cons_self
    · exact List.mem_cons_of_mem _ (List.mem_append_left _ hf)
  have hmem₂ : AgreeOff (t :: log₂.map Prod.snd) s'.mem s₂.mem :=
    (hmem₁.mono (by simp)).trans hloop.mem
  have haligned : ∀ f ∈ t :: log₂.map Prod.snd, f % 4096 = 0 :=
    fun f hf => h₀.frame_aligned f (hfresh f (hused f hf)).1
  have haligned_d := h₀.frame_aligned d hd
  have halignedt := h₀.aligned t (hfresh t (hused t (by simp))).1
  have htd := (hfresh t (hused t (by simp))).2.1
  have hd₂ : d ∉ t :: log₂.map Prod.snd := fun hmem => (hfresh d (hused d hmem)).2.1 rfl
  rw [frameOf_self halignedt.1 halignedt.2]
  let e := t ||| flagsOf (pdeAt s₀.mem s₀.cr3 n)
  let m₃ := store32 s₂.mem (d + 4 * n) e
  have hother : ∀ g, g % 4096 = 0 → g ≠ d → ∀ o < 4096, m₃ (g + o) = s₂.mem (g + o) := by
    intro g hg hne o ho
    exact store32_of_outside (by omega)
  have hdone : PdeDone kernelEnd s₀ d (log ++ (.table n, t) :: log₂) m₃ n := by
    have hpde : present (pdeAt s₀.mem s₀.cr3 n) = true := by
      simp only [deep, Bool.and_eq_true] at hdeep
      exact hdeep.1
    refine ⟨by simp [hpde], by simp [hdeep], fun _ => ⟨t, by simp, ?_, ?_⟩⟩
    · exact load32_store32_same _ _ (or_lt halignedt.1 halignedt.2 (flagsOf_lt _))
    · intro j hj
      apply (hloop.done j hj).mono
      · exact load32_store32_ne (by omega)
      · intro x hx o ho
        have hx₂ : x.2 ∈ t :: log₂.map Prod.snd := by simp [List.mem_map_of_mem hx]
        exact hother x.2 (haligned _ hx₂) (hfresh _ (hused _ hx₂)).2.1 o ho
      · intro x hx
        simp [hx]
  refine ⟨{ s₂ with mem := m₃ }, hloop.work.write h₀ hd (by omega) _, ?_⟩
  apply h.advance (hloop.work.stored hd (by omega) _) _ _ _ _ _ hdone
  · have hpops := hloop.pops
    rw [hfree₁] at hpops
    simp [h.pops, hfree, hpops]
  · rw [framesForPde, if_pos hdeep, List.length_append, List.length_cons, hloop.len]
    omega
  · intro x hx
    simp [hx]
  · intro k hk
    have hstore : load32 m₃ (d + 4 * k) = load32 s₂.mem (d + 4 * k) := load32_store32_ne (by omega)
    exact hstore.trans (hmem₂.word haligned haligned_d hd₂ (by omega))
  · intro x hx o ho
    obtain ⟨hx₀, hxd⟩ := hlogged x hx
    have hx₂ : x.2 ∉ t :: log₂.map Prod.snd :=
      fun hmem => (hfresh _ (hused _ hmem)).2.2 x hx rfl
    have halignedx := h₀.frame_aligned _ hx₀
    exact (hother x.2 halignedx hxd o ho).trans (hmem₂.byte haligned halignedx hx₂ ho)

/-- The deep copy of the table behind entry `n`. It fails only for lack of free frames. -/
theorem PdeLoop.table {n : Nat} {s' : Vm} (h₀ : Cloneable s₀)
    (h : PdeLoop kernelEnd s₀ s d n s' log) (hsub : ∀ f ∈ s.free, f ∈ s₀.free) (hd : d ∈ s₀.free)
    (hnd : (d :: s.free).Nodup) (hn : n < 1023) (hdeep : deep kernelEnd s₀ n = true) :
    (∃ s'' log', cloneTable (keepOf kernelEnd n) d n (pdeAt s₀.mem s₀.cr3 n) s' = some s'' ∧
      PdeLoop kernelEnd s₀ s d (n + 1) s'' log') ∨
      (cloneTable (keepOf kernelEnd n) d n (pdeAt s₀.mem s₀.cr3 n) s' = none ∧
        s'.free.length < framesForPde kernelEnd s₀ n) := by
  obtain ⟨-, hndfree, hfresh⟩ := h.apart hsub hnd
  have hpde : present (pdeAt s₀.mem s₀.cr3 n) = true := by
    simp only [deep, Bool.and_eq_true] at hdeep
    exact hdeep.1
  have hframes : framesForPde kernelEnd s₀ n =
      1 + (List.range 1024).countP (copies (keepOf kernelEnd n) s₀ n) := if_pos hdeep
  unfold cloneTable pfaAlloc
  cases hfree : s'.free with
  | nil => exact .inr ⟨rfl, by simp [hframes]⟩
  | cons t fs =>
      have hwork₀ : Working s₀ { s' with free := fs } := ⟨h.work.cr3, h.work.mem⟩
      have ht₀ := (hfresh t (by simp [hfree])).1
      obtain ⟨s₁, hs₁, hwork₁, hfree₁, hmem₁, hzero⟩ := hwork₀.clearTable h₀ ht₀
      have hnd₁ : (t :: s₁.free).Nodup := by
        rw [hfree₁, ← hfree]
        exact hndfree
      have hsub₁ : ∀ f ∈ s₁.free, f ∈ s₀.free := by
        intro f hf
        rw [hfree₁] at hf
        exact (hfresh f (by simp [hfree, hf])).1
      simp only [Option.bind_eq_bind, Option.bind_some, hs₁]
      rcases @PteLoop.run (keepOf kernelEnd n) s₀ s₁ n t h₀ hwork₁ hsub₁ ht₀ hnd₁ hn hpde hzero with
        ⟨s₂, hs₂, log₂, hloop⟩ | ⟨hnone, hlt⟩
      · obtain ⟨s'', hs'', hloop'⟩ := h.entered h₀ hsub hd hnd hn hdeep hfree hfree₁ hmem₁ hloop
        exact .inl ⟨s'', _, by rw [hs₂]; exact hs'', hloop'⟩
      · refine .inr ⟨by rw [hnone]; rfl, ?_⟩
        rw [hfree₁] at hlt
        rw [hframes, List.length_cons]
        dsimp only at hlt
        omega

/-- One round of the loop over the directory. It fails only for lack of free frames. -/
theorem PdeLoop.step {n : Nat} {s' : Vm} (h₀ : Cloneable s₀)
    (h : PdeLoop kernelEnd s₀ s d n s' log) (hsub : ∀ f ∈ s.free, f ∈ s₀.free) (hd : d ∈ s₀.free)
    (hnd : (d :: s.free).Nodup) (hn : n < 1023) :
    (∃ s'' log', clonePde kernelEnd d s' n = some s'' ∧
      PdeLoop kernelEnd s₀ s d (n + 1) s'' log') ∨
      (clonePde kernelEnd d s' n = none ∧ s'.free.length < framesForPde kernelEnd s₀ n) := by
  have hread := h.work.readPde h₀ (show n < 1024 by omega)
  have hwrite := h.work.write h₀ hd (show 4 * n + 4 ≤ 4096 by omega)
  have hlt := pdeAt_lt s₀.mem s₀.cr3 n
  have htable := fun hdeep => h.table h₀ hsub hd hnd hn hdeep
  unfold clonePde
  simp only [hread, Option.bind_eq_bind, Option.bind_some]
  generalize hpde : pdeAt s₀.mem s₀.cr3 n = pde at *
  cases hpresent : present pde with
  | false =>
      have hshallow : deep kernelEnd s₀ n = false := by simp [deep, hpde, hpresent]
      refine .inl ⟨_, log, hwrite 0, h.stored h₀ hsub hd hnd hn hshallow 0 ?_⟩
      exact ⟨fun _ => load32_store32_same _ _ (by decide), by simp [hpde, hpresent],
        by simp [hshallow]⟩
  | true =>
      have hshare : deep kernelEnd s₀ n = false →
          ∃ s'' log', s'.write32 (d + 4 * n) pde = some s'' ∧
            PdeLoop kernelEnd s₀ s d (n + 1) s'' log' := by
        intro hshallow
        refine ⟨_, log, hwrite pde, h.stored h₀ hsub hd hnd hn hshallow pde ?_⟩
        refine ⟨by simp [hpde, hpresent], fun _ _ => ?_, by simp [hshallow]⟩
        rw [load32_store32_same _ _ hlt, hpde]
      simp only [Bool.not_true, Bool.false_eq_true, if_false]
      by_cases hsmall : n ≤ 1
      · have hscan := @hasUserPagesOutsideKernel_eq kernelEnd s₀ s' h₀ h.work n hn hsmall
          (by rw [hpde, hpresent])
        simp only [hsmall, if_true, hscan, Option.bind_some]
        cases hdeep : deep kernelEnd s₀ n with
        | true => simpa [keepOf, hsmall] using htable hdeep
        | false => exact .inl (by simpa using hshare hdeep)
      · simp only [hsmall, if_false]
        cases huser : user pde with
        | true => simpa [keepOf, hsmall] using htable (by simp [deep, hpde, hpresent, hsmall, huser])
        | false => exact .inl (by simpa using hshare (by simp [deep, hpde, hsmall, huser]))

/-- Where entry `n` finds too few frames, the whole loop has started with too few. -/
theorem PdeLoop.too_few {n : Nat} {s' : Vm} (h : PdeLoop kernelEnd s₀ s d n s' log) (hn : n < 1023)
    (hlt : s'.free.length < framesForPde kernelEnd s₀ n) :
    s.free.length < ((List.range 1023).map (framesForPde kernelEnd s₀)).sum := by
  have hsum := ((List.range_sublist.mpr (show n + 1 ≤ 1023 by omega)).map
    (framesForPde kernelEnd s₀)).sum_le_sum (by simp)
  have hpops := congrArg List.length h.pops
  rw [List.length_append, List.length_map, h.len] at hpops
  rw [List.range_succ, List.map_append, List.sum_append] at hsum
  simp only [List.map_cons, List.map_nil, List.sum_singleton] at hsum
  omega

/-- The whole loop over the directory. -/
theorem PdeLoop.run (h₀ : Cloneable s₀) (hwork : Working s₀ s)
    (hsub : ∀ f ∈ s.free, f ∈ s₀.free) (hd : d ∈ s₀.free) (hnd : (d :: s.free).Nodup) :
    (∃ s', (List.range 1023).foldlM (clonePde kernelEnd d) s = some s' ∧
      ∃ log, PdeLoop kernelEnd s₀ s d 1023 s' log) ∨
      ((List.range 1023).foldlM (clonePde kernelEnd d) s = none ∧
        s.free.length < ((List.range 1023).map (framesForPde kernelEnd s₀)).sum) := by
  apply foldlM_range_or fun n s' => ∃ log, PdeLoop kernelEnd s₀ s d n s' log
  · exact ⟨[], hwork, rfl, rfl, fun j hj => by omega⟩
  · intro n s' hn ⟨log, hloop⟩
    rcases hloop.step h₀ hsub hd hnd hn with ⟨s'', log', hs'', hloop'⟩ | ⟨hnone, hlt⟩
    · exact .inl ⟨s'', hs'', log', hloop'⟩
    · exact .inr ⟨hnone, hloop.too_few hn hlt⟩

end Directory

end SRos.Paging
