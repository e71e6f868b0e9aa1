import Mathlib.Data.List.Lex
import Mathlib.Data.UInt
import Mathlib.Tactic.Common
import SRos.Kernel.Machine

/-!
# Comparing strings (`src/kernel/string.c`)

The two loops over the memory from a pointer on. `strcmp` goes on while two signed characters are
equal and decides on unsigned bytes; `strncmp` returns a difference of unsigned bytes. Both see
the lexicographic order.
-/

namespace SRos

/-- The memory from a pointer to a string on. -/
def CStr.memory (s : CStr) (behind : List UInt8) : List UInt8 := s.bytes ++ 0 :: behind

/-- The first `n` bytes of a string. -/
def CStr.cut (s : CStr) (n : Nat) : CStr :=
  ⟨s.bytes.take n, fun h => s.noNul (List.mem_of_mem_take h)⟩

namespace Strings

/-- The memory holds a string with these bytes at an address. -/
def Holds (m : Nat → UInt8) : Nat → List UInt8 → Prop
  | p, [] => m p = 0
  | p, c :: str => m p = c ∧ Holds m (p + 1) str

section Holds

variable {m m' : Nat → UInt8} {p : Nat} {as bs : List UInt8}

theorem Holds.append_right (h : Holds m p (as ++ bs)) : Holds m (p + as.length) bs := by
  induction as generalizing p with
  | nil => exact h
  | cons a as ih =>
      have hrest := ih h.2
      rwa [Nat.add_assoc, Nat.add_comm 1] at hrest

/-- A string that is not stored to is kept. -/
theorem Holds.congr (h : Holds m p as) (heq : ∀ i, p ≤ i → i ≤ p + as.length → m' i = m i) :
    Holds m' p as := by
  induction as generalizing p with
  | nil => exact (heq p (le_refl p) (Nat.le_add_right p _)).trans h
  | cons a as ih =>
      refine ⟨(heq p (le_refl p) (Nat.le_add_right p _)).trans h.1, ih h.2 fun i hlow hhigh => ?_⟩
      rw [List.length_cons] at heq
      exact heq i (by omega) (by omega)

/-- A string with its NUL at another place. -/
theorem Holds.cut (h : Holds m p (as ++ bs)) (hnul : m' (p + as.length) = 0)
    (heq : ∀ i, p ≤ i → i < p + as.length → m' i = m i) : Holds m' p as := by
  induction as generalizing p with
  | nil => exact hnul
  | cons a as ih =>
      rw [List.length_cons] at hnul heq
      refine ⟨(heq p (le_refl p) (by omega)).trans h.1, ih h.2 ?_ fun i hlow hhigh => ?_⟩
      · rwa [Nat.add_assoc, Nat.add_comm 1]
      · exact heq i (by omega) (by omega)

theorem Holds.nul (h : Holds m p as) : m (p + as.length) = 0 := by
  rw [← List.append_nil as] at h
  exact h.append_right

theorem Holds.unique (has : Holds m p as) (hbs : Holds m p bs) (ha : (0 : UInt8) ∉ as)
    (hb : (0 : UInt8) ∉ bs) : as = bs := by
  induction as generalizing p bs with
  | nil =>
      cases bs with
      | nil => rfl
      | cons b bs => exact absurd (hbs.1.symm.trans has) fun h => hb (h ▸ List.mem_cons_self)
  | cons a as ih =>
      cases bs with
      | nil => exact absurd (has.1.symm.trans hbs) fun h => ha (h ▸ List.mem_cons_self)
      | cons b bs =>
          rw [has.1.symm.trans hbs.1, ih has.2 hbs.2 (fun h => ha (List.mem_cons_of_mem a h))
            fun h => hb (List.mem_cons_of_mem b h)]

/-- The memory from the string on. -/
theorem Holds.shift (h : Holds m p as) : Holds (fun i => m (p + i)) 0 as := by
  suffices hshift : ∀ q, Holds m (p + q) as → Holds (fun i => m (p + i)) q as from hshift 0 h
  clear h
  induction as with
  | nil => exact fun q hq => hq
  | cons a as ih => exact fun q hq => ⟨hq.1, ih (q + 1) hq.2⟩

theorem Holds.get (h : Holds m p as) {i : Nat} (hi : i < as.length) : m (p + i) = as[i] := by
  induction as generalizing p i with
  | nil => cases hi
  | cons a as ih =>
      cases i with
      | zero => exact h.1
      | succ i =>
          have hrest := ih h.2 (Nat.lt_of_succ_lt_succ hi)
          rwa [Nat.add_assoc, Nat.add_comm 1] at hrest

theorem Holds.of_get (h : ∀ i (hi : i < as.length), m (p + i) = as[i])
    (hnul : m (p + as.length) = 0) : Holds m p as := by
  induction as generalizing p with
  | nil => exact hnul
  | cons a as ih =>
      refine ⟨h 0 (Nat.zero_lt_succ _), ih (fun i hi => ?_) ?_⟩
      · rw [Nat.add_right_comm]
        exact h (i + 1) (Nat.succ_lt_succ hi)
      · rw [List.length_cons] at hnul
        rwa [Nat.add_assoc, Nat.add_comm 1]

end Holds

/-- `strcmp`, given the memory from both pointers on. -/
def strcmp : List UInt8 → List UInt8 → Int
  | c1 :: str1, c2 :: str2 =>
      if c1.toInt8 ≠ 0 ∧ c1.toInt8 = c2.toInt8 then strcmp str1 str2
      else if c1 > c2 then 1
      else if c1 < c2 then -1
      else 0
  | _, _ => 0

/-- `strncmp`, given the memory from both pointers on and the number of rounds that are left. -/
def strncmp : List UInt8 → List UInt8 → Nat → Int
  | _, _, 0 => 0
  | c1 :: str1, c2 :: str2, num + 1 =>
      if c1 ≠ c2 then c1.toNat - c2.toNat
      else if c1 = 0 then 0
      else strncmp str1 str2 num
  | _, _, _ + 1 => 0

theorem toInt8_inj {a b : UInt8} : a.toInt8 = b.toInt8 ↔ a = b :=
  ⟨fun h => congrArg Int8.toUInt8 h, congrArg UInt8.toInt8⟩

theorem toInt8_ne_zero {a : UInt8} : a.toInt8 ≠ 0 ↔ a ≠ 0 := (@toInt8_inj a 0).not

/-! ## The loops and the bytes of the strings -/

section Loops

variable {as bs xs ys : List UInt8}

theorem ne_zero_of_notMem {c : UInt8} (h : (0 : UInt8) ∉ c :: as) : c ≠ 0 :=
  fun hc => h (hc ▸ List.mem_cons_self)

/-- The loop stops at the first difference or at the common end. -/
theorem strcmp_memory (ha : (0 : UInt8) ∉ as) (hb : (0 : UInt8) ∉ bs) :
    strcmp (as ++ 0 :: xs) (bs ++ 0 :: ys) = SRos.strcmp as bs := by
  induction as generalizing bs with
  | nil =>
      cases bs with
      | nil => rfl
      | cons b bs =>
          have hb0 := UInt8.pos_iff_ne_zero.mpr (ne_zero_of_notMem hb)
          have hge : ¬ (0 : UInt8) > b := UInt8.not_lt.mpr (UInt8.le_of_lt hb0)
          simp [strcmp, SRos.strcmp, hge, hb0]
  | cons a as ih =>
      have ha0 := ne_zero_of_notMem ha
      cases bs with
      | nil => simp [strcmp, SRos.strcmp, UInt8.pos_iff_ne_zero.mpr ha0]
      | cons b bs =>
          rw [List.cons_append, List.cons_append, strcmp, SRos.strcmp]
          by_cases hab : a = b
          · rw [if_pos ⟨toInt8_ne_zero.mpr ha0, toInt8_inj.mpr hab⟩, if_pos hab]
            exact ih (fun h => ha (List.mem_cons_of_mem a h)) fun h => hb (List.mem_cons_of_mem b h)
          · rw [if_neg fun h => hab (toInt8_inj.mp h.2), if_neg hab]
            by_cases hlt : b < a
            · rw [if_pos hlt, if_pos hlt]
            · have hab' : a < b := UInt8.lt_of_le_of_ne (UInt8.not_lt.mp hlt) hab
              rw [if_neg hlt, if_pos hab', if_neg hlt]

/-- `strncmp` sees the sign that `strcmp` sees in the first bytes. -/
theorem sign_strncmp_memory (ha : (0 : UInt8) ∉ as) (hb : (0 : UInt8) ∉ bs) (n : Nat) :
    (strncmp (as ++ 0 :: xs) (bs ++ 0 :: ys) n).sign = SRos.strcmp (as.take n) (bs.take n) := by
  induction n generalizing as bs with
  | zero => cases as <;> cases bs <;> rfl
  | succ n ih =>
      cases as with
      | nil =>
          cases bs with
          | nil => simp [strncmp, SRos.strcmp]
          | cons b bs =>
              have hb0 := ne_zero_of_notMem hb
              have hpos : 0 < b.toNat := UInt8.lt_iff_toNat_lt.mp (UInt8.pos_iff_ne_zero.mpr hb0)
              have hsign : ((0 : UInt8).toNat - b.toNat : Int).sign = -1 :=
                Int.sign_eq_neg_one_of_neg (by simpa using hpos)
              simp only [List.nil_append, List.cons_append, strncmp, if_pos hb0.symm, hsign]
              rfl
      | cons a as =>
          have ha0 := ne_zero_of_notMem ha
          cases bs with
          | nil =>
              have hpos : 0 < a.toNat := UInt8.lt_iff_toNat_lt.mp (UInt8.pos_iff_ne_zero.mpr ha0)
              have hsign : (a.toNat - (0 : UInt8).toNat : Int).sign = 1 :=
                Int.sign_eq_one_of_pos (by simpa using hpos)
              simp only [List.nil_append, List.cons_append, strncmp, if_pos ha0, hsign]
              rfl
          | cons b bs =>
              simp only [List.cons_append, strncmp, List.take_succ_cons, SRos.strcmp]
              by_cases hab : a = b
              · rw [if_neg (not_not.mpr hab), if_neg ha0, if_pos hab]
                exact ih (fun h => ha (List.mem_cons_of_mem a h))
                  fun h => hb (List.mem_cons_of_mem b h)
              · rw [if_pos hab, if_neg hab]
                by_cases hlt : b < a
                · rw [if_pos hlt]
                  have hlt' := UInt8.lt_iff_toNat_lt.mp hlt
                  exact Int.sign_eq_one_of_pos (by omega)
                · rw [if_neg hlt]
                  have hlt' := UInt8.lt_iff_toNat_lt.mp
                    (UInt8.lt_of_le_of_ne (UInt8.not_lt.mp hlt) hab)
                  exact Int.sign_eq_neg_one_of_neg (by omega)

end Loops

/-! ## The order -/

section Order

variable {as bs cs : List UInt8}

theorem strcmp_neg (as bs : List UInt8) : SRos.strcmp as bs = -SRos.strcmp bs as := by
  induction as generalizing bs with
  | nil => cases bs <;> rfl
  | cons a as ih =>
      cases bs with
      | nil => rfl
      | cons b bs =>
          simp only [SRos.strcmp]
          by_cases hab : a = b
          · rw [if_pos hab, if_pos hab.symm, ih]
          · rw [if_neg hab, if_neg (Ne.symm hab)]
            by_cases hlt : b < a
            · rw [if_pos hlt, if_neg (UInt8.lt_asymm hlt)]
              rfl
            · rw [if_neg hlt, if_pos (UInt8.lt_of_le_of_ne (UInt8.not_lt.mp hlt) hab)]

theorem strcmp_lt_zero_iff : SRos.strcmp as bs < 0 ↔ as < bs := by
  induction as generalizing bs with
  | nil => cases bs <;> simp [SRos.strcmp]
  | cons a as ih =>
      cases bs with
      | nil => simp [SRos.strcmp]
      | cons b bs =>
          rw [List.cons_lt_cons_iff, SRos.strcmp]
          by_cases hab : a = b
          · simp [hab, ih]
          · by_cases hlt : b < a
            · simp [hab, hlt, UInt8.lt_asymm hlt]
            · simp [hab, hlt, UInt8.lt_of_le_of_ne (UInt8.not_lt.mp hlt) hab]

theorem strcmp_le_zero_iff : SRos.strcmp as bs ≤ 0 ↔ as ≤ bs := by
  have hgt := @strcmp_lt_zero_iff bs as
  rw [strcmp_neg bs as] at hgt
  rw [← List.not_lt, ← hgt]
  omega

theorem strcmp_values (as bs : List UInt8) :
    SRos.strcmp as bs = -1 ∨ SRos.strcmp as bs = 0 ∨ SRos.strcmp as bs = 1 := by
  induction as generalizing bs with
  | nil => cases bs <;> simp [SRos.strcmp]
  | cons a as ih =>
      cases bs with
      | nil => simp [SRos.strcmp]
      | cons b bs =>
          simp only [SRos.strcmp]
          split
          · exact ih bs
          · split <;> simp

theorem strcmp_eq_lex (as bs : List UInt8) :
    SRos.strcmp as bs = if as < bs then -1 else if bs < as then 1 else 0 := by
  have hlt := @strcmp_lt_zero_iff as bs
  have hgt := @strcmp_lt_zero_iff bs as
  rw [strcmp_neg bs as] at hgt
  have hvalues := strcmp_values as bs
  split
  · next h =>
      have hneg := hlt.mpr h
      omega
  · next h =>
      have hge := mt hlt.mp h
      split
      · next h' =>
          have hpos := hgt.mpr h'
          omega
      · next h' =>
          have hle := mt hgt.mp h'
          omega

end Order

/-- `strcmp` is the lexicographic order on unsigned bytes, and `strncmp` has its sign. -/
theorem strings_ordered (a b c : CStr) (x y z : List UInt8) (n : Nat) :
    (strcmp (a.memory x) (b.memory y) = 0 ↔ a = b) ∧
      strcmp (a.memory x) (b.memory y) = -strcmp (b.memory y) (a.memory x) ∧
      (strcmp (a.memory x) (b.memory y) ≤ 0 → strcmp (b.memory y) (c.memory z) ≤ 0 →
        strcmp (a.memory x) (c.memory z) ≤ 0) ∧
      strcmp (a.memory x) (b.memory y) =
        (if a.bytes < b.bytes then -1 else if b.bytes < a.bytes then 1 else 0) ∧
      (strncmp (a.memory x) (b.memory y) n).sign =
        (strcmp ((a.cut n).memory x) ((b.cut n).memory y)).sign := by
  simp only [CStr.memory, strcmp_memory a.noNul b.noNul, strcmp_memory b.noNul a.noNul,
    strcmp_memory b.noNul c.noNul, strcmp_memory a.noNul c.noNul,
    strcmp_memory (a.cut n).noNul (b.cut n).noNul, sign_strncmp_memory a.noNul b.noNul]
  refine ⟨?_, strcmp_neg _ _, ?_, strcmp_eq_lex _ _, ?_⟩
  · rw [strcmp_eq_zero_iff]
    exact ⟨fun h => by cases a; cases b; cases h; rfl, congrArg CStr.bytes⟩
  · simp only [strcmp_le_zero_iff]
    exact List.le_trans
  · rcases strcmp_values (a.cut n).bytes (b.cut n).bytes with h | h | h
    all_goals
      rw [h]
      exact h

/-- A byte above `0x7F` is above every ASCII character. -/
example : strcmp [0xE9, 0] [0x7A, 0] = 1 ∧ strncmp [0xE9, 0] [0x7A, 0] 1 = 0x6F := by decide

end Strings

end SRos
