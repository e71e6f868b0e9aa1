import SRos.Paging.Model
import SRos.Lib.Loop

/-!
# Translation of addresses

The entries in arithmetic terms, and what a virtual access does where memory is mapped to
itself. A change of memory that stays outside the directory and its tables leaves the whole
translation as it is.
-/

namespace SRos.Paging

open Bytes

/-! ## Entries -/

theorem present_iff {e : Nat} : present e = true ↔ e % 2 = 1 := by
  have h : e &&& 0x01 = e % 2 := Nat.and_two_pow_sub_one_eq_mod e 1
  simp [present, h]

theorem user_iff {e : Nat} : user e = true ↔ e / 4 % 2 = 1 := by
  have h : e &&& 0x04 = (e.testBit 2).toNat * 4 := Nat.and_two_pow e 2
  have hbit : e.testBit 2 = decide (e / 2 ^ 2 % 2 = 1) := Nat.testBit_eq_decide_div_mod_eq
  rw [user, bne_iff_ne, h, hbit]
  by_cases hmod : e / 2 ^ 2 % 2 = 1
  · simp
  · simp only [hmod, decide_false, Bool.toNat_false, Nat.zero_mul]
    omega

theorem flagsOf_eq (e : Nat) : flagsOf e = e % 4096 := Nat.and_two_pow_sub_one_eq_mod e 12

theorem frameOf_eq {e : Nat} (h : e < 2 ^ 32) : frameOf e = e / 4096 * 4096 :=
  @and_highMask e 12 20 h

theorem or_flags {f fl : Nat} (hf : f % 4096 = 0) (hfl : fl < 4096) : f ||| fl = f + fl := by
  have hor := Nat.two_pow_add_eq_or_of_lt (show fl < 2 ^ 12 by omega) (f / 4096)
  have hmul : 2 ^ 12 * (f / 4096) = f := by omega
  rw [hmul] at hor
  exact hor.symm

theorem flagsOf_lt (e : Nat) : flagsOf e < 4096 := by
  rw [flagsOf_eq]
  omega

theorem frameOf_self {f : Nat} (hf : f % 4096 = 0) (hlt : f < 2 ^ 32) : frameOf f = f := by
  rw [frameOf_eq hlt]
  omega

section Entry

variable {f fl : Nat}

theorem frameOf_or (hf : f % 4096 = 0) (hlt : f < 2 ^ 32) (hfl : fl < 4096) :
    frameOf (f ||| fl) = f := by
  rw [or_flags hf hfl, frameOf_eq (by omega)]
  omega

theorem flagsOf_or (hf : f % 4096 = 0) (hfl : fl < 4096) : flagsOf (f ||| fl) = fl := by
  rw [or_flags hf hfl, flagsOf_eq]
  omega

theorem or_lt (hf : f % 4096 = 0) (hlt : f < 2 ^ 32) (hfl : fl < 4096) : f ||| fl < 2 ^ 32 := by
  rw [or_flags hf hfl]
  omega

end Entry

theorem present_flagsOf (e : Nat) : present (flagsOf e) = present e := by
  rw [Bool.eq_iff_iff, present_iff, present_iff, flagsOf_eq]
  omega

theorem user_flagsOf (e : Nat) : user (flagsOf e) = user e := by
  rw [Bool.eq_iff_iff, user_iff, user_iff, flagsOf_eq]
  omega

theorem present_of_flagsOf_eq {e e' : Nat} (h : flagsOf e = flagsOf e') : present e = present e' := by
  rw [← present_flagsOf e, h, present_flagsOf]

theorem frameOf_aligned {e : Nat} (h : e < 2 ^ 32) : frameOf e % 4096 = 0 ∧ frameOf e < 2 ^ 32 := by
  rw [frameOf_eq h]
  omega

/-! ## Walking the tables -/

/-- Entry `i` of the directory at `d`. -/
def pdeAt (m : Nat → UInt8) (d i : Nat) : Nat := load32 m (d + 4 * i)

/-- Entry `j` of the table behind entry `i` of the directory at `d`. -/
def pteAt (m : Nat → UInt8) (d i j : Nat) : Nat := load32 m (frameOf (pdeAt m d i) + 4 * j)

theorem pdeAt_lt (m : Nat → UInt8) (d i : Nat) : pdeAt m d i < 2 ^ 32 := load32_lt _ _

theorem pteAt_lt (m : Nat → UInt8) (d i j : Nat) : pteAt m d i j < 2 ^ 32 := load32_lt _ _

/-- Page `j` of entry `i` is mapped. -/
def mapped (m : Nat → UInt8) (d i j : Nat) : Bool :=
  present (pdeAt m d i) && present (pteAt m d i j)

theorem mapped_iff {m : Nat → UInt8} {d i j : Nat} :
    mapped m d i j = true ↔ present (pdeAt m d i) = true ∧ present (pteAt m d i j) = true :=
  Bool.and_eq_true_iff

theorem vaddr_split {i j o : Nat} (hj : j < 1024) (ho : o < 4096) :
    (i * 2 ^ 22 + j * 2 ^ 12 + o) >>> 22 = i ∧
      (i * 2 ^ 22 + j * 2 ^ 12 + o) >>> 12 &&& 0x3FF = j ∧
      (i * 2 ^ 22 + j * 2 ^ 12 + o) &&& 0xFFF = o := by
  have hpt (n : Nat) : n &&& 0x3FF = n % 1024 := Nat.and_two_pow_sub_one_eq_mod n 10
  have hoff (n : Nat) : n &&& 0xFFF = n % 4096 := Nat.and_two_pow_sub_one_eq_mod n 12
  rw [hpt, hoff, Nat.shiftRight_eq_div_pow, Nat.shiftRight_eq_div_pow]
  omega

theorem vaddr_eq (v : Nat) :
    v = v / 2 ^ 22 * 2 ^ 22 + v / 2 ^ 12 % 1024 * 2 ^ 12 + v % 4096 := by omega

theorem translate_split {s : Vm} {i j o : Nat} (hcr3 : frameOf s.cr3 = s.cr3) (hj : j < 1024)
    (ho : o < 4096) :
    s.translate (i * 2 ^ 22 + j * 2 ^ 12 + o) =
      if mapped s.mem s.cr3 i j then some (frameOf (pteAt s.mem s.cr3 i j) + o) else none := by
  obtain ⟨hi, hj', ho'⟩ := vaddr_split (i := i) hj ho
  unfold Vm.translate
  rw [hi, hj', ho', hcr3]
  change (if present (pdeAt s.mem s.cr3 i) then
    if present (pteAt s.mem s.cr3 i j) then some (frameOf (pteAt s.mem s.cr3 i j) + o) else none
    else none) = _
  unfold mapped
  cases present (pdeAt s.mem s.cr3 i) <;> cases present (pteAt s.mem s.cr3 i j) <;> rfl

/-- The frame at `f` is mapped to itself. -/
def Ident (s : Vm) (f : Nat) : Prop := ∀ o < 4096, s.translate (f + o) = some (f + o)

/-- Memory agrees outside the frames `fs`. -/
def AgreeOff (fs : List Nat) (m m' : Nat → UInt8) : Prop :=
  ∀ a, (∀ f ∈ fs, a < f ∨ f + 4096 ≤ a) → m' a = m a

section AgreeOff

variable {fs gs : List Nat} {m m' m'' : Nat → UInt8} {f : Nat}

theorem AgreeOff.refl (fs : List Nat) (m : Nat → UInt8) : AgreeOff fs m m := fun _ _ => rfl

theorem AgreeOff.trans (h : AgreeOff fs m m') (h' : AgreeOff fs m' m'') : AgreeOff fs m m'' :=
  fun a ha => (h' a ha).trans (h a ha)

theorem AgreeOff.mono (h : AgreeOff fs m m') (hsub : ∀ f ∈ fs, f ∈ gs) : AgreeOff gs m m' :=
  fun a ha => h a fun f hf => ha f (hsub f hf)

/-- A frame that is not among `fs` keeps its bytes. -/
theorem AgreeOff.byte (h : AgreeOff fs m m') (hfs : ∀ f ∈ fs, f % 4096 = 0) (hf : f % 4096 = 0)
    (hnot : f ∉ fs) {o : Nat} (ho : o < 4096) : m' (f + o) = m (f + o) := by
  apply h
  intro g hg
  have hg' := hfs g hg
  have hne : f ≠ g := fun he => hnot (he ▸ hg)
  omega

theorem AgreeOff.word (h : AgreeOff fs m m') (hfs : ∀ f ∈ fs, f % 4096 = 0) (hf : f % 4096 = 0)
    (hnot : f ∉ fs) {o : Nat} (ho : o + 4 ≤ 4096) : load32 m' (f + o) = load32 m (f + o) := by
  apply load32_congr
  intro a ha ha'
  have hbyte := h.byte hfs hf hnot (o := a - f) (by omega)
  rwa [show f + (a - f) = a by omega] at hbyte

theorem AgreeOff.store32 (hf : f ∈ fs) {o x : Nat} (ho : o + 4 ≤ 4096) :
    AgreeOff fs m (store32 m (f + o) x) := by
  intro a ha
  apply store32_of_outside
  have := ha f hf
  omega

theorem AgreeOff.splice (hf : f ∈ fs) (src : Nat → UInt8) :
    AgreeOff fs m (splice m f 4096 src) := by
  intro a ha
  exact splice_outside (ha f hf)

end AgreeOff

end SRos.Paging
