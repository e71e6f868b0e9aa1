import SRos.Ipc.Model
import SRos.Lib.Bytes

/-!
# The semaphore table in memory

`sem_table` is an array of 64 entries of 40 bytes: the id, 24 bytes of name, the value and the
two ends of the wait list. `sem_create` copies the name with `strcpy`, which knows nothing of
the 24 bytes.
-/

namespace SRos.SemTable

open Bytes

/-- The memory that holds the table, and `sem_count` as the word in its register. -/
structure SemMemory where
  mem : Nat → UInt8
  semCount : Nat

/-- The address of `sem_table[i]` in the table at `table`. -/
def entry (table i : Nat) : Nat := table + 40 * i

def idAt (table i : Nat) : Nat := entry table i
def nameAt (table i : Nat) : Nat := entry table i + 4
def valueAt (table i : Nat) : Nat := entry table i + 28
def waitHeadAt (table i : Nat) : Nat := entry table i + 32
def waitTailAt (table i : Nat) : Nat := entry table i + 36

def semFindSlot (table : Nat) (s : SemMemory) : Option Nat :=
  (List.range maxSems).find? fun i => int32 (load32 s.mem (idAt table i)) < 0

/-- `while ((*dest++ = *src++) != '\0');` for the bytes in front of the NUL. -/
def strcpy (dest : Nat) : List UInt8 → (Nat → UInt8) → Nat → UInt8
  | [], m => Function.update m dest 0
  | c :: cs, m => strcpy (dest + 1) cs (Function.update m dest c)

/-- The name field of `sem_create`, whose argument may be a null pointer. -/
def setName (dest : Nat) (name : Option CStr) (m : Nat → UInt8) : Nat → UInt8 :=
  match name with
  | some name => strcpy dest name.bytes m
  | none => Function.update m dest 0

/-- The stores of `sem_create` to `sem_table[slot]`. -/
def fillSlot (table slot : Nat) (name : Option CStr) (initialValue : Int) (s : SemMemory) :
    Nat → UInt8 :=
  let m := store32 s.mem (idAt table slot) s.semCount
  let m := setName (nameAt table slot) name m
  let m := store32 m (valueAt table slot)
    (u32OfInt (if initialValue < 0 then 0 else initialValue))
  let m := store32 m (waitHeadAt table slot) 0
  store32 m (waitTailAt table slot) 0

/-- `sem_create`, which `SYS_SEM_INIT` calls with the caller's string. -/
def semCreate (table : Nat) (name : Option CStr) (initialValue : Int) (s : SemMemory) :
    Int × SemMemory :=
  match semFindSlot table s with
  | none => (-1, s)
  | some slot =>
      let m := fillSlot table slot name initialValue s
      (int32 (load32 m (idAt table slot)), { mem := m, semCount := u32 (s.semCount + 1) })

/-- The bytes that `sem_create` copies, the NUL apart. -/
def nameBytes (name : Option CStr) : List UInt8 := (name.map CStr.bytes).getD []

/-! ## The copy -/

section Copy

variable {m : Nat → UInt8} {table slot : Nat} {name : Option CStr} {v : Int} {s : SemMemory}

/-- `strcpy` writes the string and one NUL. -/
theorem strcpy_eq (dest : Nat) (cs : List UInt8) (m : Nat → UInt8) :
    strcpy dest cs m = splice m dest (cs.length + 1) fun i => cs.getD i 0 := by
  induction cs generalizing dest m with
  | nil =>
      have hsucc := @splice_succ m dest 0 fun i => ([] : List UInt8).getD i 0
      rw [splice_zero] at hsucc
      exact hsucc
  | cons c cs ih =>
      rw [strcpy, ih]
      funext a
      by_cases hfirst : a = dest
      · subst hfirst
        rw [splice_outside (by omega), Function.update_self]
        exact (@splice_inside m a (cs.length + 2) 0 (fun i => (c :: cs).getD i 0) (by omega)).symm
      · by_cases hin : dest ≤ a ∧ a < dest + (cs.length + 2)
        · obtain ⟨k, rfl⟩ : ∃ k, a = dest + 1 + k := ⟨a - (dest + 1), by omega⟩
          rw [splice_inside (by omega), Nat.add_assoc dest, Nat.add_comm 1 k,
            splice_inside (by simp only [List.length_cons]; omega)]
          rfl
        · rw [splice_outside (by omega), Function.update_of_ne hfirst,
            splice_outside (by simp only [List.length_cons]; omega)]

theorem setName_eq (dest : Nat) (name : Option CStr) (m : Nat → UInt8) :
    setName dest name m =
      splice m dest ((nameBytes name).length + 1) fun i => (nameBytes name).getD i 0 := by
  cases name with
  | none => exact strcpy_eq dest [] m
  | some name => exact strcpy_eq dest name.bytes m

/-- The name field, as far as it goes. -/
theorem fillSlot_name {k : Nat} (hk : k < semNameMax) :
    fillSlot table slot name v s (nameAt table slot + k) =
      if k ≤ (nameBytes name).length then (nameBytes name).getD k 0
      else s.mem (nameAt table slot + k) := by
  unfold semNameMax at hk
  unfold fillSlot
  rw [store32_of_outside (by unfold nameAt waitTailAt; omega),
    store32_of_outside (by unfold nameAt waitHeadAt; omega),
    store32_of_outside (by unfold nameAt valueAt; omega), setName_eq]
  split
  · next hle => exact splice_inside (by omega)
  · next hle =>
      rw [splice_outside (by omega), store32_of_outside (by unfold nameAt idAt; omega)]

/-- Behind the entry, `sem_create` writes what is left of the name. -/
theorem fillSlot_outside {a : Nat} (ha : a < entry table slot ∨ entry table slot + 40 ≤ a) :
    fillSlot table slot name v s a =
      if nameAt table slot ≤ a ∧ a ≤ nameAt table slot + (nameBytes name).length then
        (nameBytes name).getD (a - nameAt table slot) 0
      else s.mem a := by
  unfold fillSlot
  rw [store32_of_outside (by unfold waitTailAt; omega),
    store32_of_outside (by unfold waitHeadAt; omega),
    store32_of_outside (by unfold valueAt; omega), setName_eq]
  unfold splice
  split
  · next hin => rw [if_pos (by omega)]
  · next hout => rw [if_neg (by omega), store32_of_outside (by unfold idAt; omega)]

/-- A byte of the name in front of its end is no NUL. -/
theorem nameBytes_ne_zero {k : Nat} (hk : k < (nameBytes name).length) :
    (nameBytes name).getD k 0 ≠ 0 := by
  cases name with
  | none => cases hk
  | some name =>
      intro hzero
      have hmem : (nameBytes (some name)).getD k 0 ∈ name.bytes := by
        rw [List.getD_eq_getElem _ _ hk]
        exact List.getElem_mem hk
      rw [hzero] at hmem
      exact name.noNul hmem

end Copy

/-- `sem_create` kept to the entry `slot`: its name field has the terminated name, and nothing
outside of the entry has changed. -/
structure OwnSlot (table slot : Nat) (name : Option CStr) (s s' : SemMemory) : Prop where
  name : ∃ k < semNameMax, s'.mem (nameAt table slot + k) = 0 ∧
    ∀ j < k, s'.mem (nameAt table slot + j) = (nameBytes name).getD j 0
  others : ∀ a, a < entry table slot ∨ entry table slot + 40 ≤ a → s'.mem a = s.mem a

section Create

variable {table slot : Nat} {name : Option CStr} {v : Int} {s : SemMemory}

theorem semCreate_slot (hslot : semFindSlot table s = some slot) :
    (semCreate table name v s).2 =
      { mem := fillSlot table slot name v s, semCount := u32 (s.semCount + 1) } := by
  unfold semCreate
  rw [hslot]

theorem semCreate_full (hslot : semFindSlot table s = none) : semCreate table name v s = (-1, s) := by
  unfold semCreate
  rw [hslot]

/-- An overrun of up to 12 bytes stays in the entry, whose other fields are stored later. -/
theorem fillSlot_hidden (hshort : (nameBytes name).length < 36) {a : Nat}
    (ha : a < entry table slot ∨ entry table slot + 40 ≤ a) :
    fillSlot table slot name v s a = s.mem a := by
  rw [fillSlot_outside ha, if_neg (by unfold nameAt; omega)]

/-- A name of 24 bytes or more has no NUL in the field. -/
theorem not_ownSlot (hslot : semFindSlot table s = some slot)
    (hlong : semNameMax ≤ (nameBytes name).length) :
    ¬OwnSlot table slot name s (semCreate table name v s).2 := by
  rintro ⟨⟨k, hk, hzero, -⟩, -⟩
  rw [semCreate_slot hslot] at hzero
  dsimp only at hzero
  rw [fillSlot_name hk, if_pos (by omega)] at hzero
  exact nameBytes_ne_zero (by omega) hzero

theorem ownSlot (hslot : semFindSlot table s = some slot)
    (hshort : (nameBytes name).length < semNameMax) :
    OwnSlot table slot name s (semCreate table name v s).2 := by
  rw [semCreate_slot hslot]
  refine ⟨⟨(nameBytes name).length, hshort, ?_, ?_⟩, ?_⟩
  · dsimp only
    rw [fillSlot_name hshort, if_pos (le_refl _)]
    exact List.getD_eq_default _ _ (le_refl _)
  · intro j hj
    dsimp only
    rw [fillSlot_name (by omega), if_pos (by omega)]
  · intro a ha
    exact fillSlot_hidden (Nat.lt_trans hshort (by decide)) ha

end Create

/-- `sem_create` keeps to the entry it chooses if and only if the name fits. It changes nothing
when there is no free entry. -/
theorem sem_create_own_slot (table : Nat) (name : Option CStr) (v : Int) (s : SemMemory) :
    (semFindSlot table s = none → semCreate table name v s = (-1, s)) ∧
    ((∀ slot, semFindSlot table s = some slot →
        OwnSlot table slot name s (semCreate table name v s).2) ↔
      (semFindSlot table s = none ∨ (nameBytes name).length < semNameMax)) := by
  refine ⟨semCreate_full, ?_⟩
  cases hslot : semFindSlot table s with
  | none => simp
  | some slot =>
      simp only [Option.some.injEq, forall_eq', reduceCtorEq, false_or]
      constructor
      · intro hown
        by_contra hlong
        exact not_ownSlot hslot (by omega) hown
      · exact ownSlot hslot

/-- Two semaphores were created and the first one destroyed. -/
def reused : SemMemory where
  mem := store32 (fun a => if a % 40 < 4 then 0xFF else 0) (idAt 0 1) 1
  semCount := 2

def longName : CStr := ⟨List.replicate 40 0x41, by simp⟩

/-- A name of 40 bytes replaces the id of the next semaphore. -/
theorem sem_create_next_id : ∃ slot, semFindSlot 0 reused = some slot ∧ slot ≠ 1 ∧
    load32 reused.mem (idAt 0 1) = 1 ∧
    load32 (semCreate 0 (some longName) 0 reused).2.mem (idAt 0 1) = 0x41414141 ∧
    ¬OwnSlot 0 slot (some longName) reused (semCreate 0 (some longName) 0 reused).2 := by
  have hslot : semFindSlot 0 reused = some 0 := by decide
  refine ⟨0, hslot, by decide, by decide, ?_, not_ownSlot hslot (by decide)⟩
  rw [semCreate_slot hslot]
  decide

/-! ## The table of the kernel -/

/-- A pointer to a task, where the tasks have the addresses `task`. -/
def pointer (task : Slot → Nat) : Option Slot → Nat
  | none => 0
  | some t => task t

/-- The entry `i` in memory is `sem`. -/
structure HoldsSem (table : Nat) (task : Slot → Nat) (m : Nat → UInt8) (i : Nat) (sem : Sem) :
    Prop where
  id : int32 (load32 m (idAt table i)) = sem.id
  name : ∀ j ≤ sem.name.bytes.length, m (nameAt table i + j) = sem.name.bytes.getD j 0
  fits : sem.name.bytes.length < semNameMax
  value : int32 (load32 m (valueAt table i)) = sem.value
  waitHead : load32 m (waitHeadAt table i) = pointer task sem.waitHead
  waitTail : load32 m (waitTailAt table i) = pointer task sem.waitTail

/-- The memory holds the table and the counter of `k`. -/
structure Holds (table : Nat) (task : Slot → Nat) (s : SemMemory) (k : Kernel) : Prop where
  lt : s.semCount < 2 ^ 32
  count : int32 s.semCount = k.semCount
  sem : ∀ i : Fin maxSems, HoldsSem table task s.mem i (k.sems i)

section Refines

variable {table : Nat} {task : Slot → Nat} {s : SemMemory} {k : Kernel}

theorem HoldsSem.congr {m m' : Nat → UInt8} {i : Nat} {sem : Sem}
    (h : HoldsSem table task m i sem)
    (hm : ∀ a, entry table i ≤ a → a < entry table i + 40 → m' a = m a) :
    HoldsSem table task m' i sem where
  id := by
    rw [← h.id, load32_congr fun a ha ha' => ?_]
    exact hm a (by unfold idAt at ha; omega) (by unfold idAt at ha'; omega)
  name := by
    intro j hj
    have hfits := h.fits
    unfold semNameMax at hfits
    rw [← h.name j hj]
    exact hm _ (by unfold nameAt; omega) (by unfold nameAt; omega)
  fits := h.fits
  value := by
    rw [← h.value, load32_congr fun a ha ha' => ?_]
    exact hm a (by unfold valueAt at ha; omega) (by unfold valueAt at ha'; omega)
  waitHead := by
    rw [← h.waitHead, load32_congr fun a ha ha' => ?_]
    exact hm a (by unfold waitHeadAt at ha; omega) (by unfold waitHeadAt at ha'; omega)
  waitTail := by
    rw [← h.waitTail, load32_congr fun a ha ha' => ?_]
    exact hm a (by unfold waitTailAt at ha; omega) (by unfold waitTailAt at ha'; omega)

theorem Holds.findSlot (h : Holds table task s k) :
    semFindSlot table s = (SRos.semFindSlot k).map Fin.val := by
  unfold semFindSlot SRos.semFindSlot
  rw [← List.map_coe_finRange_eq_range, List.find?_map]
  simp only [Function.comp_def, (h.sem _).id]

/-- The processor's increment of an `int` that does not overflow. -/
theorem int32_succ {n : Nat} {i : Int} (hn : n < 2 ^ 32) (h : intSucc (int32 n) = some i) :
    int32 (u32 (n + 1)) = i := by
  rw [intSucc_eq_some h]
  unfold intSucc at h
  split at h
  · next hlt =>
      unfold int32 at hlt ⊢
      unfold u32
      split at hlt <;> split <;> omega
  · cases h

/-- The kernel's model stores a name only where it fits. -/
theorem nameBytes_eq {name : Option CStr} {stored : CStr} (hname : semName name = some stored) :
    nameBytes name = stored.bytes ∧ stored.bytes.length < semNameMax := by
  cases name with
  | none =>
      cases hname
      exact ⟨rfl, by decide⟩
  | some name =>
      rw [semName, SRos.strcpy] at hname
      split at hname
      · next hfits =>
          cases hname
          exact ⟨rfl, hfits⟩
      · cases hname

/-- The entry that `sem_create` leaves for a name that fits. -/
theorem fillSlot_holds {slot : Nat} {name : Option CStr} {v : Int} {stored : CStr}
    (hcount : s.semCount < 2 ^ 32) (hname : semName name = some stored) (hv : v < 2 ^ 31) :
    HoldsSem table task (fillSlot table slot name v s) slot
      { id := int32 s.semCount, name := stored, value := if v < 0 then 0 else v
        waitHead := none, waitTail := none } := by
  obtain ⟨hbytes, hfits⟩ := nameBytes_eq hname
  have hlen : stored.bytes.length < 24 := hfits
  refine ⟨?_, ?_, hfits, ?_, ?_, ?_⟩
  · -- the name lies behind the id
    have hid : load32 (fillSlot table slot name v s) (idAt table slot) = s.semCount := by
      unfold fillSlot
      rw [load32_store32_ne (by unfold waitTailAt idAt; omega),
        load32_store32_ne (by unfold waitHeadAt idAt; omega),
        load32_store32_ne (by unfold valueAt idAt; omega), setName_eq,
        load32_congr fun a ha ha' => splice_outside (by unfold idAt at ha'; unfold nameAt; omega)]
      exact load32_store32_same _ _ hcount
    rw [hid]
  · intro j hj
    change j ≤ stored.bytes.length at hj
    rw [fillSlot_name (by unfold semNameMax; omega), hbytes, if_pos hj]
  · have hvalue : load32 (fillSlot table slot name v s) (valueAt table slot) =
        u32OfInt (if v < 0 then 0 else v) := by
      unfold fillSlot
      rw [load32_store32_ne (by unfold waitTailAt valueAt; omega),
        load32_store32_ne (by unfold waitHeadAt valueAt; omega)]
      exact load32_store32_same _ _ (u32OfInt_lt _)
    rw [hvalue]
    unfold u32OfInt int32
    dsimp only
    split <;> omega
  · unfold fillSlot
    rw [load32_store32_ne (by unfold waitTailAt waitHeadAt; omega)]
    exact load32_store32_same _ _ (by decide)
  · exact load32_store32_same _ _ (by decide)

/-- Where the kernel's `semCreate` has a result, the table in memory follows it. -/
theorem semCreate_refines {name : Option CStr} {v r : Int} {k' : Kernel}
    (h : Holds table task s k) (hv : v < 2 ^ 31)
    (hcreate : SRos.semCreate name v k = some (r, k')) :
    (semCreate table name v s).1 = r ∧ Holds table task (semCreate table name v s).2 k' := by
  unfold SRos.semCreate at hcreate
  cases hslot : SRos.semFindSlot k with
  | none =>
      rw [hslot] at hcreate
      cases hcreate
      have hfull : semFindSlot table s = none := by rw [h.findSlot, hslot, Option.map_none]
      rw [semCreate_full hfull]
      exact ⟨rfl, h⟩
  | some slot =>
      rw [hslot] at hcreate
      obtain ⟨count, hcount, hcreate⟩ := Option.bind_eq_some_iff.mp hcreate
      obtain ⟨stored, hname, hcreate⟩ := Option.bind_eq_some_iff.mp hcreate
      cases hcreate
      have hfound : semFindSlot table s = some slot.val := by rw [h.findSlot, hslot, Option.map_some]
      have hentry := @fillSlot_holds table task s slot name v stored h.lt hname hv
      obtain ⟨hbytes, hfits⟩ := nameBytes_eq hname
      have hshort : (nameBytes name).length < 36 := by
        rw [hbytes]
        exact Nat.lt_trans hfits (by decide)
      have hresult : (semCreate table name v s).1 =
          int32 (load32 (fillSlot table slot name v s) (idAt table slot)) := by
        unfold semCreate
        rw [hfound]
      rw [h.count] at hentry
      refine ⟨hresult.trans hentry.id, ?_⟩
      rw [semCreate_slot hfound]
      refine ⟨u32_lt _, ?_, ?_⟩
      · rw [← h.count] at hcount
        exact int32_succ h.lt hcount
      · intro i
        by_cases hi : i = slot
        · rw [hi]
          simpa using hentry
        · have hne : i.val ≠ slot.val := fun heq => hi (Fin.ext heq)
          dsimp only
          rw [Function.update_of_ne hi]
          refine (h.sem i).congr fun a ha ha' => fillSlot_hidden hshort ?_
          unfold entry at ha ha' ⊢
          omega

end Refines

end SRos.SemTable
