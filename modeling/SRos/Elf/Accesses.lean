import SRos.Lib.Traced
import SRos.Elf.Segments

/-!
# The addresses that the loader uses

The loops of `load_segment` once more, with every page they have mapped and every byte they store.
The stores of the paging functions to the directory and its tables are not among these. The trace
of a call that faults or runs out of frames ends where the kernel stops.
-/

namespace SRos.Elf.Accesses

open Bytes Fs Paging
open Traced (step attempt)

inductive Access
  /-- The page of an address is mapped to a new frame. -/
  | map (virtAddr : Nat)
  | store (virtAddr : Nat)
  deriving DecidableEq

def Access.addr : Access → Nat
  | .map v => v
  | .store v => v

abbrev Loader (α : Type) : Type := OptionT (Traced Access) α

def allocPage (virtAddr : Nat) (s : Vm) : Loader Vm := step (.map virtAddr) (pagingAllocPage virtAddr s)

def write8 (v : Nat) (b : UInt8) (s : Vm) : Loader Vm := step (.store v) (s.write8 v b)

def storeBytes (v n : Nat) (g : Nat → UInt8) (s : Vm) : Loader Vm :=
  (List.range n).foldlM (fun s i => write8 (v + i) (g i) s) s

/-- The loop of `load_segment` over the bytes of the file, for `fuel` passes. -/
def loadFile (fs : FsState) (ino : Nat) : Nat → Nat → Nat → Nat → Vm → Loader (Int × Vm)
  | 0, _, _, _, s => return (0, s)
  | fuel + 1, currVaddr, fileOffset, fileRemain, s =>
      if fileRemain = 0 then return (0, s)
      else do
        let pageOffset := currVaddr &&& 0xFFF
        let toRead := min (4096 - pageOffset) fileRemain
        let s ← allocPage (frameOf currVaddr) s
        let (n, pageBuf) := readFileAt fs ino zeros toRead fileOffset
        if n < 0 then return (-1, s)
        else
          let s ← storeBytes (frameOf currVaddr + pageOffset) toRead pageBuf s
          loadFile fs ino fuel (u32 (currVaddr + toRead)) (u32 (fileOffset + toRead))
            (fileRemain - toRead) s

/-- The page of an address is allocated if it is missing. -/
def allocMissing (v : Nat) (s : Vm) : Loader Vm := do
  if ← attempt (pageMissing v s) then allocPage (frameOf v) s
  else return s

/-- The loop of `load_segment` over the bytes that are not in the file, for `fuel` passes. -/
def loadBss : Nat → Nat → Nat → Vm → Loader Vm
  | 0, _, _, s => return s
  | fuel + 1, currVaddr, bssRemain, s =>
      if bssRemain = 0 then return s
      else do
        let pageOffset := currVaddr &&& 0xFFF
        let s ← allocMissing currVaddr s
        let toZero := min (4096 - pageOffset) bssRemain
        let s ← storeBytes (frameOf currVaddr + pageOffset) toZero (fun _ => 0) s
        loadBss fuel (u32 (currVaddr + toZero)) (bssRemain - toZero) s

/-- `load_segment`, where both loops may take `fuel` passes. -/
def loadSegment (fs : FsState) (ino fuel virtAddr offset filesz memsz : Nat) (s : Vm) :
    Loader (Int × Vm) := do
  let (r, s) ← loadFile fs ino fuel virtAddr offset filesz s
  if r < 0 then return (-1, s)
  else
    let bssRemain := u32Sub memsz filesz
    let s ← loadBss fuel (u32 (virtAddr + filesz)) bssRemain s
    return (0, s)

/-- The loop over the program headers, for the indices that are left. -/
def loadSegments (fs : FsState) (ino fuel phoff : Nat) : List Nat → Vm → Loader (Int × Vm)
  | [], s => return (0, s)
  | i :: is, s =>
      let (n, buf) := readFileAt fs ino uninit sizeofPhdr (u32 (phoff + i * sizeofPhdr))
      if n < sizeofPhdr then return (-1, s)
      else
        let phdr := Phdr.decode buf
        if phdr.pType ≠ ptLoad then loadSegments fs ino fuel phoff is s
        else do
          let (r, s) ← loadSegment fs ino fuel phdr.pVaddr phdr.pOffset phdr.pFilesz phdr.pMemsz s
          if r < 0 then return (-1, s) else loadSegments fs ino fuel phoff is s

def setupUserStack (s : Vm) : Loader Vm :=
  (List.range userStackPages).foldlM (fun s i => allocPage (userStackVaddr - (i + 1) * 0x1000) s) s

def elfLoadAndExec (fs : FsState) (fuel : Nat) (path : CStr) (regs : Registers) (s : Vm) :
    Loader (Int × Registers × Vm) :=
  match lookupPath fs path with
  | none => return (-1, regs, s)
  | some ino =>
      let (n, buf) := readFileAt fs ino uninit sizeofEhdr 0
      if n < sizeofEhdr then return (-1, regs, s)
      else
        let ehdr := Ehdr.decode buf
        if !elfCheckFile ehdr then return (-1, regs, s)
        else do
          let (r, s) ← loadSegments fs ino fuel ehdr.ePhoff (List.range ehdr.ePhnum) s
          if r < 0 then return (-1, regs, s)
          else
            let s ← setupUserStack s
            return (0, startRegs ehdr.eEntry regs, s)

/-! ## The loops without their traces -/

section Values

variable {fs : FsState} {ino fuel a off n memsz : Nat} {g : Nat → UInt8} {s : Vm}

theorem value_storeBytes (v n : Nat) (g : Nat → UInt8) (s : Vm) :
    (storeBytes v n g s).run.value = Elf.storeBytes v n g s := by
  unfold storeBytes Elf.storeBytes
  generalize List.range n = is
  induction is generalizing s with
  | nil => rfl
  | cons i is ih =>
      rw [List.foldlM_cons, List.foldlM_cons, Traced.value_run_bind]
      exact congrArg _ (funext ih)

theorem value_loadFile (fuel a off n : Nat) (s : Vm) :
    (loadFile fs ino fuel a off n s).run.value = Elf.loadFile fs ino fuel a off n s := by
  induction fuel generalizing a off n s with
  | zero => rfl
  | succ fuel ih =>
      unfold loadFile Elf.loadFile
      split
      · rfl
      · rw [Traced.value_run_bind]
        refine congrArg _ (funext fun s => ?_)
        dsimp only
        split
        · rfl
        · rw [Traced.value_run_bind, value_storeBytes]
          exact congrArg _ (funext fun s => ih _ _ _ s)

theorem value_loadBss (fuel a n : Nat) (s : Vm) :
    (loadBss fuel a n s).run.value = Elf.loadBss fuel a n s := by
  induction fuel generalizing a n s with
  | zero => rfl
  | succ fuel ih =>
      unfold loadBss Elf.loadBss
      split
      · rfl
      · have hrest : ∀ s : Vm, (do
              let s ← storeBytes (frameOf a + (a &&& 0xFFF)) (min (4096 - (a &&& 0xFFF)) n)
                (fun _ => 0) s
              loadBss fuel (u32 (a + min (4096 - (a &&& 0xFFF)) n))
                (n - min (4096 - (a &&& 0xFFF)) n) s : Loader Vm).run.value =
            (Elf.storeBytes (frameOf a + (a &&& 0xFFF)) (min (4096 - (a &&& 0xFFF)) n)
              (fun _ => 0) s).bind (Elf.loadBss fuel (u32 (a + min (4096 - (a &&& 0xFFF)) n))
                (n - min (4096 - (a &&& 0xFFF)) n)) := by
          intro s
          rw [Traced.value_run_bind, value_storeBytes]
          exact congrArg _ (funext fun s => ih _ _ s)
        rw [Traced.value_run_bind, allocMissing, Traced.value_run_bind, Option.bind_assoc]
        refine congrArg _ (funext fun missing => ?_)
        cases missing with
        | false => exact hrest s
        | true => exact congrArg _ (funext hrest)

/-! ## The loops come to an end -/

/-- Passes that are left over when all bytes have been taken are not made. -/
theorem loadFile_fuel {fuel' : Nat} (h : n ≤ fuel) (h' : n ≤ fuel') (a off : Nat) (s : Vm) :
    loadFile fs ino fuel a off n s = loadFile fs ino fuel' a off n s := by
  induction fuel generalizing fuel' a off n s with
  | zero =>
      obtain rfl : n = 0 := by omega
      cases fuel' <;> rfl
  | succ fuel ih =>
      by_cases hn : n = 0
      · subst hn
        cases fuel' <;> rfl
      · obtain ⟨k, rfl⟩ : ∃ k, fuel' = k + 1 := ⟨fuel' - 1, by omega⟩
        unfold loadFile
        rw [if_neg hn, if_neg hn]
        dsimp only
        have hpage : a &&& 0xFFF < 4096 := by
          rw [and_0xFFF]
          omega
        refine congrArg _ (funext fun s => ?_)
        split
        · rfl
        · exact congrArg _ (funext fun s => ih (by omega) (by omega) _ _ s)

theorem loadBss_fuel {fuel' : Nat} (h : n ≤ fuel) (h' : n ≤ fuel') (a : Nat) (s : Vm) :
    loadBss fuel a n s = loadBss fuel' a n s := by
  induction fuel generalizing fuel' a n s with
  | zero =>
      obtain rfl : n = 0 := by omega
      cases fuel' <;> rfl
  | succ fuel ih =>
      by_cases hn : n = 0
      · subst hn
        cases fuel' <;> rfl
      · obtain ⟨k, rfl⟩ : ∃ k, fuel' = k + 1 := ⟨fuel' - 1, by omega⟩
        unfold loadBss
        rw [if_neg hn, if_neg hn]
        dsimp only
        have hpage : a &&& 0xFFF < 4096 := by
          rw [and_0xFFF]
          omega
        refine congrArg _ (funext fun s => ?_)
        exact congrArg _ (funext fun s => ih (by omega) (by omega) _ s)

theorem loadSegment_fuel {fuel' virtAddr filesz : Nat} (hfile : filesz ≤ fuel)
    (hbss : u32Sub memsz filesz ≤ fuel) (hfile' : filesz ≤ fuel') (hbss' : u32Sub memsz filesz ≤ fuel')
    (off : Nat) (s : Vm) : loadSegment fs ino fuel virtAddr off filesz memsz s =
      loadSegment fs ino fuel' virtAddr off filesz memsz s := by
  unfold loadSegment
  rw [loadFile_fuel hfile hfile']
  refine congrArg _ (funext fun ⟨r, s⟩ => ?_)
  dsimp only
  rw [loadBss_fuel hbss hbss']

/-- With enough passes the loader is the one of the model. -/
theorem value_loadSegment {virtAddr filesz : Nat} (hfile : filesz ≤ fuel)
    (hbss : u32Sub memsz filesz ≤ fuel) (off : Nat) (s : Vm) :
    (loadSegment fs ino fuel virtAddr off filesz memsz s).run.value =
      Elf.loadSegment fs ino virtAddr off filesz memsz s := by
  unfold loadSegment Elf.loadSegment
  rw [loadFile_fuel hfile (Nat.le_refl _), Traced.value_run_bind, value_loadFile]
  refine congrArg _ (funext fun ⟨r, s⟩ => ?_)
  dsimp only
  split
  · rfl
  · rw [loadBss_fuel hbss (Nat.le_refl _), Traced.value_run_bind, value_loadBss]
    rfl

theorem value_loadSegments (hfuel : 2 ^ 32 ≤ fuel) (phoff : Nat) (is : List Nat) (s : Vm) :
    (loadSegments fs ino fuel phoff is s).run.value = Elf.loadSegments fs ino phoff is s := by
  induction is generalizing s with
  | nil => rfl
  | cons i is ih =>
      unfold loadSegments Elf.loadSegments
      dsimp only
      generalize (readFileAt fs ino uninit sizeofPhdr (u32 (phoff + i * sizeofPhdr))).2 = buf
      have hfile : (Phdr.decode buf).pFilesz < 2 ^ 32 := load32_lt _ _
      have hbss : u32Sub (Phdr.decode buf).pMemsz (Phdr.decode buf).pFilesz < 2 ^ 32 := u32_lt _
      split
      · rfl
      · split
        · exact ih s
        · rw [Traced.value_run_bind, value_loadSegment (by omega) (by omega)]
          refine congrArg _ (funext fun x => ?_)
          obtain ⟨r, s⟩ := x
          dsimp only
          split
          · rfl
          · exact ih s

theorem value_setupUserStack (s : Vm) :
    (setupUserStack s).run.value = Elf.setupUserStack s := by
  unfold setupUserStack Elf.setupUserStack
  generalize List.range userStackPages = is
  induction is generalizing s with
  | nil => rfl
  | cons i is ih =>
      rw [List.foldlM_cons, List.foldlM_cons, Traced.value_run_bind]
      exact congrArg _ (funext ih)

theorem value_elfLoadAndExec (hfuel : 2 ^ 32 ≤ fuel) (path : CStr) (regs : Registers) (s : Vm) :
    (elfLoadAndExec fs fuel path regs s).run.value = Elf.elfLoadAndExec fs path regs s := by
  unfold elfLoadAndExec Elf.elfLoadAndExec
  cases lookupPath fs path with
  | none => rfl
  | some ino =>
      dsimp only
      split
      · rfl
      · split
        · rfl
        · rw [Traced.value_run_bind, value_loadSegments hfuel]
          refine congrArg _ (funext fun ⟨r, s⟩ => ?_)
          dsimp only
          split
          · rfl
          · rw [Traced.value_run_bind, value_setupUserStack]
            rfl

end Values

/-! ## The addresses -/

/-- The access is to the byte at `x`, or maps its page. -/
def Access.At (x : Nat) : Access → Prop
  | .map v => v = frameOf x
  | .store v => v = x

theorem Access.At.page {x : Nat} {e : Access} (h : e.At x) (hx : x < 2 ^ 32) :
    x / 4096 = e.addr / 4096 := by
  cases e with
  | map v =>
      obtain rfl : v = frameOf x := h
      rw [Access.addr, frameOf_page hx]
      omega
  | store v =>
      obtain rfl : v = x := h
      rfl

section Addresses

variable {β : Type} {fs : FsState} {ino fuel a off n : Nat} {g : Nat → UInt8} {s s' : Vm} {r : Int}

/-- The address `k` bytes behind `a`, where a pass over `m` bytes has been made in between. -/
theorem u32_pass {m k : Nat} (hm : m ≤ k) : u32 (u32 (a + m) + (k - m)) = u32 (a + k) := by
  rw [u32_add_u32, Nat.add_assoc, Nat.add_sub_cancel' hm]

/-- A pass stores to the bytes from `a` on, up to the end of the page. -/
theorem pass_addr {m i : Nat} (ha : a < 2 ^ 32) (hm : m ≤ 4096 - a % 4096) (hi : i < m) :
    frameOf a + a % 4096 + i = u32 (a + i) := by
  rw [frameOf_page ha, u32_of_lt (by omega)]
  omega

theorem storeBytes_within (v n : Nat) (g : Nat → UInt8) (s : Vm) :
    (storeBytes v n g s).run.Within fun e => ∃ i < n, e = .store (v + i) := by
  refine .foldlM (fun s i hi => ?_) s
  intro e he
  exact ⟨i, List.mem_range.mp hi, List.mem_singleton.mp he⟩

theorem storeBytes_stores {v i : Nat} (hi : i < n)
    (hend : (storeBytes v n g s).run.value = some s') :
    .store (v + i) ∈ (storeBytes v n g s).run.trace :=
  Traced.mem_trace_foldlM (List.mem_range.mpr hi) (fun _ => List.mem_singleton_self _) hend

/-- The bytes that a pass stores. -/
theorem pass_within {m : Nat} (ha : a < 2 ^ 32) (hm : m = min (4096 - a % 4096) n) (g : Nat → UInt8)
    (s : Vm) : (storeBytes (frameOf a + a % 4096) m g s).run.Within fun e =>
      ∃ k < n, e.At (u32 (a + k)) := by
  intro e he
  obtain ⟨i, hi, rfl⟩ := storeBytes_within _ _ g s e he
  exact ⟨i, by omega, pass_addr ha (by omega) hi⟩

/-- The rest of the bytes. -/
theorem rest_within {m : Nat} (hm : m ≤ n) {p : Traced Access β}
    (h : p.Within fun e => ∃ k < n - m, e.At (u32 (u32 (a + m) + k))) :
    p.Within fun e => ∃ k < n, e.At (u32 (a + k)) := by
  intro e he
  obtain ⟨k, hk, hat⟩ := h e he
  refine ⟨m + k, by omega, ?_⟩
  rwa [u32_add_u32, Nat.add_assoc] at hat

theorem loadFile_within (ha : a < 2 ^ 32) (off : Nat) (s : Vm) :
    (loadFile fs ino fuel a off n s).run.Within fun e => ∃ k < n, e.At (u32 (a + k)) := by
  induction fuel generalizing a off n s with
  | zero => exact Traced.within_pure _
  | succ fuel ih =>
      unfold loadFile
      split
      · exact Traced.within_pure _
      · next hn =>
          dsimp only
          rw [and_0xFFF]
          refine .run_bind ?_ fun s _ => ?_
          · intro e he
            rw [List.mem_singleton.mp he]
            exact ⟨0, by omega, by rw [Nat.add_zero, u32_of_lt ha]; rfl⟩
          · split
            · exact Traced.within_pure _
            · exact .run_bind (pass_within ha rfl _ s) fun s _ =>
                rest_within (Nat.min_le_right _ _) (ih (u32_lt _) _ s)

theorem loadBss_within (ha : a < 2 ^ 32) (s : Vm) :
    (loadBss fuel a n s).run.Within fun e => ∃ k < n, e.At (u32 (a + k)) := by
  induction fuel generalizing a n s with
  | zero => exact Traced.within_pure _
  | succ fuel ih =>
      unfold loadBss
      split
      · exact Traced.within_pure _
      · next hn =>
          dsimp only
          rw [and_0xFFF]
          refine .run_bind (.run_bind (by simp [Traced.Within]) fun missing _ => ?_) fun _ _ => ?_
          · split
            · intro e he
              rw [List.mem_singleton.mp he]
              exact ⟨0, by omega, by rw [Nat.add_zero, u32_of_lt ha]; rfl⟩
            · exact Traced.within_pure _
          · exact .run_bind (pass_within ha rfl _ _) fun s _ =>
              rest_within (Nat.min_le_right _ _) (ih (u32_lt _) s)

/-- A loop that comes to its end has stored all bytes. -/
theorem loadBss_stores {k : Nat} (ha : a < 2 ^ 32) (hfuel : n ≤ fuel) (hk : k < n)
    (hend : (loadBss fuel a n s).run.value = some s') :
    .store (u32 (a + k)) ∈ (loadBss fuel a n s).run.trace := by
  induction fuel generalizing a n k s with
  | zero => omega
  | succ fuel ih =>
      unfold loadBss at hend ⊢
      rw [if_neg (by omega)] at hend ⊢
      dsimp only at hend ⊢
      rw [and_0xFFF] at hend ⊢
      generalize hm : min (4096 - a % 4096) n = m at hend ⊢
      rw [Traced.value_run_bind] at hend
      obtain ⟨s₁, hs₁, hend⟩ := Option.bind_eq_some_iff.mp hend
      rw [Traced.value_run_bind] at hend
      obtain ⟨s₂, hs₂, hend⟩ := Option.bind_eq_some_iff.mp hend
      refine Traced.mem_trace_run_bind.mpr (.inr ⟨s₁, hs₁, Traced.mem_trace_run_bind.mpr ?_⟩)
      by_cases hkm : k < m
      · left
        rw [← pass_addr ha (by omega) hkm]
        exact storeBytes_stores hkm hs₂
      · right
        refine ⟨s₂, hs₂, ?_⟩
        rw [← u32_pass (show m ≤ k by omega)]
        exact ih (u32_lt _) (by omega) (by omega) hend

theorem loadFile_stores {k : Nat} (ha : a < 2 ^ 32) (hfuel : n ≤ fuel) (hk : k < n) (hr : 0 ≤ r)
    (hend : (loadFile fs ino fuel a off n s).run.value = some (r, s')) :
    .store (u32 (a + k)) ∈ (loadFile fs ino fuel a off n s).run.trace := by
  induction fuel generalizing a off n k s with
  | zero => omega
  | succ fuel ih =>
      unfold loadFile at hend ⊢
      rw [if_neg (by omega)] at hend ⊢
      dsimp only at hend ⊢
      rw [and_0xFFF] at hend ⊢
      generalize hm : min (4096 - a % 4096) n = m at hend ⊢
      rw [Traced.value_run_bind] at hend
      obtain ⟨s₁, hs₁, hend⟩ := Option.bind_eq_some_iff.mp hend
      refine Traced.mem_trace_run_bind.mpr (.inr ⟨s₁, hs₁, ?_⟩)
      split at hend
      · obtain ⟨rfl, -⟩ : -1 = r ∧ s₁ = s' := by simpa using hend
        omega
      · next hread =>
          rw [if_neg hread]
          rw [Traced.value_run_bind] at hend
          obtain ⟨s₂, hs₂, hend⟩ := Option.bind_eq_some_iff.mp hend
          refine Traced.mem_trace_run_bind.mpr ?_
          by_cases hkm : k < m
          · left
            rw [← pass_addr ha (by omega) hkm]
            exact storeBytes_stores hkm hs₂
          · right
            refine ⟨s₂, hs₂, ?_⟩
            rw [← u32_pass (show m ≤ k by omega)]
            exact ih (u32_lt _) (by omega) (by omega) hend

end Addresses

/-! ## A segment -/

/-- The bytes that the loops of `load_segment` go over. -/
def Covers (virtAddr filesz memsz x : Nat) : Prop :=
  (∃ k < filesz, x = u32 (virtAddr + k)) ∨
    ∃ k < u32Sub memsz filesz, x = u32 (virtAddr + filesz + k)

/-- The bytes of a range that does not wrap around. -/
theorem Covers.inside {virtAddr filesz memsz x : Nat} (hsizes : filesz ≤ memsz)
    (hend : virtAddr + memsz ≤ 2 ^ 32) (hmem : memsz < 2 ^ 32) (hx : Covers virtAddr filesz memsz x) :
    virtAddr ≤ x ∧ x < virtAddr + memsz := by
  rcases hx with ⟨k, hk, rfl⟩ | ⟨k, hk, rfl⟩
  · rw [u32_of_lt (by omega)]
    omega
  · rw [u32Sub_of_le hmem hsizes] at hk
    rw [u32_of_lt (by omega)]
    omega

section Segment

variable {fs : FsState} {ino fuel virtAddr off filesz memsz : Nat} {s s' : Vm} {r : Int}

theorem loadSegment_within (hv : virtAddr < 2 ^ 32) (off filesz memsz : Nat) (s : Vm) :
    (loadSegment fs ino fuel virtAddr off filesz memsz s).run.Within fun e =>
      ∃ x, Covers virtAddr filesz memsz x ∧ e.At x := by
  refine .run_bind ?_ fun ⟨r, s⟩ _ => ?_
  · intro e he
    obtain ⟨k, hk, hat⟩ := loadFile_within hv off s e he
    exact ⟨_, .inl ⟨k, hk, rfl⟩, hat⟩
  · dsimp only
    split
    · exact Traced.within_pure _
    · refine .run_bind ?_ fun _ _ => Traced.within_pure _
      intro e he
      obtain ⟨k, hk, hat⟩ := loadBss_within (u32_lt _) s e he
      rw [u32_add_u32] at hat
      exact ⟨_, .inr ⟨k, hk, rfl⟩, hat⟩

/-- A segment that has been loaded has all its bytes stored. -/
theorem loadSegment_stores {x : Nat} (hv : virtAddr < 2 ^ 32) (hfile : filesz ≤ fuel)
    (hbss : u32Sub memsz filesz ≤ fuel) (hr : 0 ≤ r)
    (hend : (loadSegment fs ino fuel virtAddr off filesz memsz s).run.value = some (r, s'))
    (hx : Covers virtAddr filesz memsz x) :
    .store x ∈ (loadSegment fs ino fuel virtAddr off filesz memsz s).run.trace := by
  unfold loadSegment at hend ⊢
  rw [Traced.value_run_bind] at hend
  obtain ⟨⟨r₁, s₁⟩, hs₁, hend⟩ := Option.bind_eq_some_iff.mp hend
  dsimp only at hend
  split at hend
  · obtain ⟨rfl, -⟩ : -1 = r ∧ s₁ = s' := by simpa using hend
    omega
  · next hr₁ =>
      refine Traced.mem_trace_run_bind.mpr ?_
      rcases hx with ⟨k, hk, rfl⟩ | ⟨k, hk, rfl⟩
      · exact .inl (loadFile_stores hv hfile hk (by omega) hs₁)
      · rw [Traced.value_run_bind] at hend
        obtain ⟨s₂, hs₂, -⟩ := Option.bind_eq_some_iff.mp hend
        refine .inr ⟨_, hs₁, ?_⟩
        have hstore := loadBss_stores (u32_lt _) hbss hk hs₂
        rw [u32_add_u32] at hstore
        dsimp only
        rw [if_neg hr₁]
        exact Traced.mem_trace_run_bind.mpr (.inl hstore)

end Segment

end SRos.Elf.Accesses
