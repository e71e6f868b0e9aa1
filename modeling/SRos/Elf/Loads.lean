import SRos.Elf.Spared

/-!
# The loader as allocations and stores

Whatever the file holds, all that a call of the loader does to the address space is to allocate
pages and to store bytes, one after the other. If the segments are in the user space, so is each
of these steps.
-/

namespace SRos.Elf

open Bytes Fs Paging

/-- The address space `s'` is made of `s` by allocations of user pages and stores to them. -/
inductive Loads (s : Vm) : Vm → Prop
  | refl : Loads s s
  | alloc {t u : Vm} {v : Nat} (h : Loads s t) (hv : UserPage (v / 4096))
      (hu : pagingAllocPage v t = some u) : Loads s u
  | store {t u : Vm} {v : Nat} {b : UInt8} (h : Loads s t) (hv : UserPage (v / 4096))
      (hu : t.write8 v b = some u) : Loads s u

theorem Loads.trans {s t u : Vm} (h : Loads s t) (h' : Loads t u) : Loads s u := by
  induction h' with
  | refl => exact h
  | alloc _ hv hu ih => exact .alloc ih hv hu
  | store _ hv hu ih => exact .store ih hv hu

section Leads

open Accesses (Loader)

variable {α β : Type} {s : Vm} {m : Loader α} {f : α → Loader β} {out : α → Vm} {out' : β → Vm}

/-- If the accesses of the computation are in the user space, it is made of such steps. -/
def Leads (s : Vm) (m : Loader α) (out : α → Vm) : Prop :=
  m.run.Within (fun e => UserPage (e.addr / 4096)) → ∀ a, m.run.value = some a → Loads s (out a)

theorem Leads.pure {a : α} (h : out a = s) : Leads s (pure a) out := by
  intro _ b hb
  obtain rfl := Option.some.inj hb
  rw [h]
  exact .refl

theorem Leads.bind (h : Leads s m out) (hf : ∀ a, Leads (out a) (f a) out') :
    Leads s (m >>= f) out' := by
  intro hwithin b hb
  rw [Traced.value_run_bind] at hb
  obtain ⟨a, ha, hb⟩ := Option.bind_eq_some_iff.mp hb
  have hfirst := h (fun e he => hwithin e (Traced.mem_trace_run_bind.mpr (.inl he))) a ha
  exact hfirst.trans (hf a
    (fun e he => hwithin e (Traced.mem_trace_run_bind.mpr (.inr ⟨a, ha, he⟩))) b hb)

theorem Leads.foldlM {xs : List β} {g : Vm → β → Loader Vm} (h : ∀ s x, Leads s (g s x) id) (s : Vm) :
    Leads s (xs.foldlM g s) id := by
  induction xs generalizing s with
  | nil => exact .pure rfl
  | cons x xs ih =>
      rw [List.foldlM_cons]
      exact .bind (h s x) ih

theorem leads_allocPage (v : Nat) (s : Vm) : Leads s (Accesses.allocPage v s) id :=
  fun hwithin _ hs' => .alloc .refl (hwithin (.map v) (List.mem_singleton_self _)) hs'

theorem leads_write8 (v : Nat) (b : UInt8) (s : Vm) : Leads s (Accesses.write8 v b s) id :=
  fun hwithin _ hs' => .store .refl (hwithin (.store v) (List.mem_singleton_self _)) hs'

theorem leads_storeBytes (v n : Nat) (g : Nat → UInt8) (s : Vm) :
    Leads s (Accesses.storeBytes v n g s) id :=
  .foldlM (fun s _ => leads_write8 _ _ s) s

theorem leads_allocMissing (v : Nat) (s : Vm) : Leads s (Accesses.allocMissing v s) id := by
  have hattempt : Leads s (Traced.attempt (pageMissing v s)) fun _ => s := fun _ _ _ => .refl
  refine .bind hattempt fun missing => ?_
  split
  · exact leads_allocPage _ s
  · exact .pure rfl

theorem leads_loadFile (fs : FsState) (ino fuel a off n : Nat) (s : Vm) :
    Leads s (Accesses.loadFile fs ino fuel a off n s) Prod.snd := by
  induction fuel generalizing a off n s with
  | zero => exact .pure rfl
  | succ fuel ih =>
      unfold Accesses.loadFile
      split
      · exact .pure rfl
      · refine .bind (leads_allocPage _ s) fun s => ?_
        dsimp only
        split
        · exact .pure rfl
        · exact .bind (leads_storeBytes _ _ _ s) fun s => ih _ _ _ s

theorem leads_loadBss (fuel a n : Nat) (s : Vm) : Leads s (Accesses.loadBss fuel a n s) id := by
  induction fuel generalizing a n s with
  | zero => exact .pure rfl
  | succ fuel ih =>
      unfold Accesses.loadBss
      split
      · exact .pure rfl
      · exact .bind (leads_allocMissing a s) fun s =>
          .bind (leads_storeBytes _ _ _ s) fun s => ih _ _ s

theorem leads_loadSegment (fs : FsState) (ino fuel virtAddr off filesz memsz : Nat) (s : Vm) :
    Leads s (Accesses.loadSegment fs ino fuel virtAddr off filesz memsz s) Prod.snd := by
  refine .bind (leads_loadFile fs ino fuel virtAddr off filesz s) fun ⟨r, s⟩ => ?_
  dsimp only
  split
  · exact .pure rfl
  · exact .bind (leads_loadBss _ _ _ s) fun s => .pure rfl

theorem leads_loadSegments (fs : FsState) (ino fuel phoff : Nat) (is : List Nat) (s : Vm) :
    Leads s (Accesses.loadSegments fs ino fuel phoff is s) Prod.snd := by
  induction is generalizing s with
  | nil => exact .pure rfl
  | cons i is ih =>
      unfold Accesses.loadSegments
      dsimp only
      split
      · exact .pure rfl
      · split
        · exact ih s
        · refine .bind (leads_loadSegment _ _ _ _ _ _ _ s) fun x => ?_
          obtain ⟨r, s⟩ := x
          dsimp only
          split
          · exact .pure rfl
          · exact ih s

theorem leads_elfLoadAndExec (fs : FsState) (fuel : Nat) (path : CStr) (regs : Registers) (s : Vm) :
    Leads s (Accesses.elfLoadAndExec fs fuel path regs s) fun x => x.2.2 := by
  unfold Accesses.elfLoadAndExec
  split
  · exact .pure rfl
  · dsimp only
    split
    · exact .pure rfl
    · split
      · exact .pure rfl
      · refine .bind (leads_loadSegments _ _ _ _ _ s) fun ⟨r, s⟩ => ?_
        dsimp only
        split
        · exact .pure rfl
        · exact .bind (show Leads s _ id from .foldlM (fun s i => leads_allocPage _ s) s) fun s =>
            .pure rfl

end Leads

theorem InUser.covers {ph : Phdr} (h : InUser ph) {x : Nat} (hx : ph.Covers x) : UserPage (x / 4096) := by
  have hpos : 0 < ph.pMemsz := by
    by_contra hzero
    have hsizes := h.sizes
    rcases hx with ⟨k, hk, -⟩ | ⟨k, hk, -⟩
    · omega
    · rw [u32Sub_of_le (by omega) hsizes] at hk
      omega
  have hlow := h.low hpos
  have hhigh := h.high hpos
  obtain ⟨hx₁, hx₂⟩ := Accesses.Covers.inside h.sizes (by omega) (by omega) hx
  unfold UserPage
  omega

/-- A call of `elf_load_and_exec` for a file whose segments are in the user space. -/
theorem loads_of_exec {fs : FsState} {path : CStr} {regs regs' : Registers} {r : Int} {s s' : Vm}
    (hseg : ∀ ino, lookupPath fs path = some ino → hasEhdr fs ino → SegmentsInUser fs ino)
    (hs : elfLoadAndExec fs path regs s = some (r, regs', s')) : Loads s s' := by
  have hvalue : (Accesses.elfLoadAndExec fs (2 ^ 32) path regs s).run.value = _ :=
    Accesses.value_elfLoadAndExec le_rfl path regs s
  rw [← hvalue] at hs
  refine leads_elfLoadAndExec fs (2 ^ 32) path regs s (fun e he => ?_) _ hs
  rcases exec_within fs (2 ^ 32) path regs s e he with ⟨ph, hph, x, hx, hat⟩ | ⟨k, hk, rfl⟩
  · obtain ⟨ino, hfound, hhas, i, hi, hphdr, htype, rfl⟩ := mem_segmentsReached hph
    have hpage := (hseg ino hfound hhas i hi hphdr htype).covers hx
    have hlt : x < 2 ^ 32 := by
      unfold UserPage at hpage
      omega
    rwa [← hat.page hlt]
  · unfold UserPage Accesses.Access.addr userStackVaddr
    dsimp only
    omega

end SRos.Elf
