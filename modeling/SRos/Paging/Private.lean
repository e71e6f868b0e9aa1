import SRos.Paging.Family
import SRos.Paging.Permissions

/-!
# Directories that share nothing

The user space of a directory is what its entries from the second to the last but one refer to.
Two directories are private if they have no table and no page in common. What a task finds at its
user addresses then depends on frames that no other directory refers to.
-/

namespace SRos.Paging

open Bytes

/-- Entry `i` of the directory at `d` refers to a table of its user space. -/
def HasTable (m : Nat → UInt8) (d i : Nat) : Prop :=
  1 ≤ i ∧ i < 1023 ∧ present (pdeAt m d i) = true

/-- Page `j` behind this entry is mapped. -/
def HasPage (m : Nat → UInt8) (d i j : Nat) : Prop :=
  HasTable m d i ∧ j < 1024 ∧ present (pteAt m d i j) = true

instance (m : Nat → UInt8) (d i : Nat) : Decidable (HasTable m d i) :=
  inferInstanceAs (Decidable (_ ∧ _ ∧ _))

instance (m : Nat → UInt8) (d i j : Nat) : Decidable (HasPage m d i j) :=
  inferInstanceAs (Decidable (_ ∧ _ ∧ _))

/-- The frames of the directory at `d` and of all that it refers to. -/
inductive InSpace (m : Nat → UInt8) (d : Nat) : Nat → Prop
  | dir : InSpace m d d
  | table {i : Nat} (h : HasTable m d i) : InSpace m d (frameOf (pdeAt m d i))
  | page {i j : Nat} (h : HasPage m d i j) : InSpace m d (frameOf (pteAt m d i j))

/-- No two entries of the directories in `D` refer to one table or to one page, and all entries are
those of user pages. -/
structure Private (D : Nat → Prop) (m : Nat → UInt8) : Prop where
  pdes : ∀ {d i}, D d → HasTable m d i → flagsOf (pdeAt m d i) = 0x07
  filled : ∀ {d i}, D d → HasTable m d i → ∃ j, HasPage m d i j
  ptes : ∀ {d i j}, D d → HasPage m d i j → flagsOf (pteAt m d i j) = 0x07
  tables : ∀ {d d' i i'}, D d → D d' → HasTable m d i → HasTable m d' i' →
    frameOf (pdeAt m d i) = frameOf (pdeAt m d' i') → d = d' ∧ i = i'
  pages : ∀ {d d' i j i' j'}, D d → D d' → HasPage m d i j → HasPage m d' i' j' →
    frameOf (pteAt m d i j) = frameOf (pteAt m d' i' j') → d = d' ∧ i = i' ∧ j = j'

theorem Private.mono {D D' : Nat → Prop} {m : Nat → UInt8} (h : Private D m)
    (hsub : ∀ d, D' d → D d) : Private D' m where
  pdes := fun hd => h.pdes (hsub _ hd)
  filled := fun hd => h.filled (hsub _ hd)
  ptes := fun hd => h.ptes (hsub _ hd)
  tables := fun hd hd' => h.tables (hsub _ hd) (hsub _ hd')
  pages := fun hd hd' => h.pages (hsub _ hd) (hsub _ hd')

/-! ## Memory of a user space -/

/-- The memory of all frames of the user space is the same. -/
def SpaceKept (m m' : Nat → UInt8) (d : Nat) : Prop :=
  ∀ f, InSpace m d f → ∀ o < 4096, m' (f + o) = m (f + o)

theorem load32_frame {m m' : Nat → UInt8} {f j : Nat} (h : ∀ o < 4096, m' (f + o) = m (f + o))
    (hj : j < 1024) : load32 m' (f + 4 * j) = load32 m (f + 4 * j) := by
  apply load32_congr
  intro a ha ha'
  have hbyte := h (a - f) (by omega)
  rwa [show f + (a - f) = a by omega] at hbyte

/-- The entries of the directory and of its tables are the same. -/
structure SameEntries (m m' : Nat → UInt8) (d : Nat) : Prop where
  pde : ∀ {i}, i < 1024 → pdeAt m' d i = pdeAt m d i
  pte : ∀ {i j}, HasTable m d i → j < 1024 → pteAt m' d i j = pteAt m d i j

theorem SpaceKept.entries {m m' : Nat → UInt8} {d : Nat} (h : SpaceKept m m' d) :
    SameEntries m m' d := by
  have hpde : ∀ {i}, i < 1024 → pdeAt m' d i = pdeAt m d i := fun hi => load32_frame (h d .dir) hi
  refine ⟨hpde, fun htable hj => ?_⟩
  rw [pteAt, pteAt, hpde (by have := htable.2.1; omega)]
  exact load32_frame (h _ (.table htable)) hj

namespace SameEntries

variable {m m' : Nat → UInt8} {d i j : Nat}

theorem hasTable (h : SameEntries m m' d) : HasTable m' d i ↔ HasTable m d i := by
  unfold HasTable
  constructor
  · rintro ⟨hi₀, hi, hp⟩
    exact ⟨hi₀, hi, h.pde (i := i) (by omega) ▸ hp⟩
  · rintro ⟨hi₀, hi, hp⟩
    exact ⟨hi₀, hi, (h.pde (i := i) (by omega)).symm ▸ hp⟩

theorem hasPage (h : SameEntries m m' d) : HasPage m' d i j ↔ HasPage m d i j := by
  unfold HasPage
  rw [h.hasTable]
  constructor
  · rintro ⟨htable, hj, hp⟩
    exact ⟨htable, hj, h.pte htable hj ▸ hp⟩
  · rintro ⟨htable, hj, hp⟩
    exact ⟨htable, hj, (h.pte htable hj).symm ▸ hp⟩

theorem frame (h : SameEntries m m' d) (htable : HasTable m d i) :
    frameOf (pdeAt m' d i) = frameOf (pdeAt m d i) := by
  rw [h.pde (by have := htable.2.1; omega)]

theorem inSpace (h : SameEntries m m' d) {f : Nat} : InSpace m' d f ↔ InSpace m d f := by
  constructor
  · intro hf
    cases hf with
    | dir => exact .dir
    | table htable =>
        have htable := h.hasTable.mp htable
        rw [h.frame htable]
        exact .table htable
    | page hpage =>
        have hpage := h.hasPage.mp hpage
        rw [h.pte hpage.1 hpage.2.1]
        exact .page hpage
  · intro hf
    cases hf with
    | dir => exact .dir
    | table htable =>
        rw [← h.frame htable]
        exact .table (h.hasTable.mpr htable)
    | page hpage =>
        rw [← h.pte hpage.1 hpage.2.1]
        exact .page (h.hasPage.mpr hpage)

end SameEntries

/-- Directories whose entries are the same stay private. -/
theorem Private.congr {D : Nat → Prop} {m m' : Nat → UInt8} (h : Private D m)
    (hsame : ∀ d, D d → SameEntries m m' d) : Private D m' where
  pdes := by
    intro d i hd htable
    have htable := (hsame d hd).hasTable.mp htable
    rw [(hsame d hd).pde (by have := htable.2.1; omega)]
    exact h.pdes hd htable
  filled := by
    intro d i hd htable
    obtain ⟨j, hpage⟩ := h.filled hd ((hsame d hd).hasTable.mp htable)
    exact ⟨j, (hsame d hd).hasPage.mpr hpage⟩
  ptes := by
    intro d i j hd hpage
    have hpage := (hsame d hd).hasPage.mp hpage
    rw [(hsame d hd).pte hpage.1 hpage.2.1]
    exact h.ptes hd hpage
  tables := by
    intro d d' i i' hd hd' htable htable' heq
    have htable := (hsame d hd).hasTable.mp htable
    have htable' := (hsame d' hd').hasTable.mp htable'
    rw [(hsame d hd).frame htable, (hsame d' hd').frame htable'] at heq
    exact h.tables hd hd' htable htable' heq
  pages := by
    intro d d' i j i' j' hd hd' hpage hpage' heq
    have hpage := (hsame d hd).hasPage.mp hpage
    have hpage' := (hsame d' hd').hasPage.mp hpage'
    rw [(hsame d hd).pte hpage.1 hpage.2.1, (hsame d' hd').pte hpage'.1 hpage'.2.1] at heq
    exact h.pages hd hd' hpage hpage' heq

/-! ## Accesses in ring 3 -/

/-- An entry lets an access in ring 3 through. -/
def allows (write : Bool) (e : Nat) : Bool := present e && user e && (!write || writable e)

/-- The physical address that an access in ring 3 reaches through the directory at `d`. -/
def userAddr (m : Nat → UInt8) (d : Nat) (write : Bool) (v : Nat) : Option Nat :=
  let pde := pdeAt m d (v >>> 22)
  let pte := pteAt m d (v >>> 22) (v >>> 12 &&& 0x3FF)
  if allows write pde && allows write pte then some (frameOf pte + (v &&& 0xFFF)) else none

/-- What a task finds at a user address. -/
def userByte (m : Nat → UInt8) (d v : Nat) : Option UInt8 := (userAddr m d false v).map m

theorem allows_user {e : Nat} (h : flagsOf e = 0x07) (write : Bool) : allows write e = true := by
  have hpresent : present e = true := by
    rw [← present_flagsOf, h]
    rfl
  have huser : user e = true := by
    rw [← user_flagsOf, h]
    rfl
  have hwritable : writable e = true := by
    rw [← writable_flagsOf, h]
    rfl
  simp [allows, hpresent, huser, hwritable]

theorem allows_kernel {f : Nat} (hf : f % 4096 = 0) (write : Bool) : allows write (f ||| 0x03) = false := by
  have huser : ¬ user (f ||| 0x03) = true := by
    rw [user_iff, or_flags hf (by decide)]
    omega
  simp [allows, huser]

theorem present_of_allows {write : Bool} {e : Nat} (h : allows write e = true) : present e = true := by
  simp only [allows, Bool.and_eq_true] at h
  exact h.1.1

end SRos.Paging
