import Mathlib.Data.List.TakeWhile
import Mathlib.Data.Nat.Digits.Defs
import SRos.Kernel.Strings

/-!
# Hexadecimal numbers (`src/user/shell.c`)

`hextoi` shifts its value before it looks at the next character. So a character behind the digits
costs a factor of sixteen, and what `puthex` prints is read back as long as nothing follows it.
-/

namespace SRos.Shell

/-- What `puts` passes to `putchar`. -/
def puts (str : List UInt8) : List UInt8 := str.takeWhile (· ≠ 0)

/-- The characters that `puthex` prints. -/
def puthex (val : Nat) : List UInt8 :=
  let digits := (List.range 8).map fun (i : Nat) =>
    let digit := (val >>> (28 - i * 4)) &&& 0xF
    UInt8.ofNat (if digit < 10 then 48 + digit else 97 + digit - 10)
  puts ([48, 120] ++ digits ++ [0])

/-- What the tests in the loop of `hextoi` make of a character. -/
def hexDigit (c : UInt8) : Option Nat :=
  if c ≥ 48 ∧ c ≤ 57 then some (c.toNat - 48)
  else if c ≥ 97 ∧ c ≤ 102 then some (c.toNat - 97 + 10)
  else if c ≥ 65 ∧ c ≤ 70 then some (c.toNat - 65 + 10)
  else none

def hextoiLoop : List UInt8 → Nat → Nat
  | [], val => val
  | c :: s, val =>
      if c = 0 then val
      else
        let val := u32 (val <<< 4)
        match hexDigit c with
        | some digit => hextoiLoop s (val ||| digit)
        | none => val

/-- `hextoi`, given the memory from the pointer on. -/
def hextoi (s : List UInt8) : Nat :=
  if s[0]? = some 48 ∧ (s[1]? = some 120 ∨ s[1]? = some 88) then hextoiLoop (s.drop 2) 0
  else hextoiLoop s 0

/-! ## The number in front of a text -/

/-- A text behind an optional `0x` or `0X`. -/
def unprefixed : List UInt8 → List UInt8
  | 48 :: 120 :: text => text
  | 48 :: 88 :: text => text
  | text => text

def isHex (c : UInt8) : Bool := (hexDigit c).isSome

/-- The value of the longest prefix of hexadecimal digits. -/
def hexValue (text : List UInt8) : Nat :=
  Nat.ofDigits 16 ((text.takeWhile isHex).filterMap hexDigit).reverse

/-- What is behind the digits. -/
def hexRest (text : List UInt8) : List UInt8 := text.dropWhile isHex

section Loop

variable {c : UInt8} {text behind : List UInt8} {val : Nat}

theorem hexDigit_lt {digit : Nat} (h : hexDigit c = some digit) : digit < 16 := by
  unfold hexDigit at h
  have hlt := c.toNat_lt
  split at h
  · next hc =>
      have hle := UInt8.le_iff_toNat_le.mp hc.2
      obtain rfl := Option.some.inj h
      simp only [UInt8.reduceToNat] at hle
      omega
  split at h
  · next hc =>
      have hle := UInt8.le_iff_toNat_le.mp hc.2
      obtain rfl := Option.some.inj h
      simp only [UInt8.reduceToNat] at hle
      omega
  split at h
  · next hc =>
      have hle := UInt8.le_iff_toNat_le.mp hc.2
      obtain rfl := Option.some.inj h
      simp only [UInt8.reduceToNat] at hle
      omega
  · cases h

/-- A shifted word has place for a digit. -/
theorem shift_or_digit {digit : Nat} (h : digit < 16) (val : Nat) :
    u32 (val <<< 4) ||| digit = u32 (16 * val + digit) := by
  have hshift : u32 (val <<< 4) = (val % 2 ^ 28) <<< 4 := by
    rw [u32, Nat.shiftLeft_eq, Nat.shiftLeft_eq]
    omega
  have hdigit : digit < 2 ^ 4 := h
  rw [hshift, ← Nat.shiftLeft_add_eq_or_of_lt hdigit, u32, Nat.shiftLeft_eq]
  omega

/-- The value of a list of digits behind a value. -/
def horner (val : Nat) (digits : List Nat) : Nat := digits.foldl (fun v d => 16 * v + d) val

theorem horner_zero (digits : List Nat) : horner 0 digits = Nat.ofDigits 16 digits.reverse := by
  rw [Nat.ofDigits_eq_foldr, List.foldr_reverse, horner]
  congr 1
  funext v d
  exact Nat.add_comm ..

theorem u32_horner (val : Nat) (digits : List Nat) :
    u32 (horner (u32 val) digits) = u32 (horner val digits) := by
  induction digits generalizing val with
  | nil => exact Nat.mod_mod ..
  | cons d digits ih =>
      have hstep : u32 (16 * u32 val + d) = u32 (16 * val + d) := by
        unfold u32
        omega
      change u32 (horner (16 * u32 val + d) digits) = u32 (horner (16 * val + d) digits)
      rw [← ih, hstep, ih]

/-- The loop over a text: the value of its digits, shifted once more if something follows them. -/
theorem hextoiLoop_eq (hnul : (0 : UInt8) ∉ text) (hval : val < 2 ^ 32) :
    hextoiLoop (text ++ 0 :: behind) val =
      u32 ((if hexRest text = [] then 1 else 16) *
        horner val ((text.takeWhile isHex).filterMap hexDigit)) := by
  induction text generalizing val with
  | nil =>
      change val = u32 (1 * val)
      rw [Nat.one_mul, u32_of_lt hval]
  | cons c text ih =>
      have hc := Strings.ne_zero_of_notMem hnul
      rw [List.cons_append, hextoiLoop, if_neg hc]
      cases hdigit : hexDigit c with
      | none =>
          have hhex : isHex c = false := by rw [isHex, hdigit]; rfl
          have hrest : hexRest (c :: text) = c :: text := by
            rw [hexRest, List.dropWhile_cons, hhex]
            rfl
          rw [hrest, if_neg (List.cons_ne_nil _ _), List.takeWhile_cons, hhex]
          change u32 (val <<< 4) = u32 (16 * val)
          rw [Nat.shiftLeft_eq, Nat.mul_comm]
      | some digit =>
          have hhex : isHex c = true := by rw [isHex, hdigit]; rfl
          have hrest : hexRest (c :: text) = hexRest text := by
            rw [hexRest, List.dropWhile_cons, hhex]
            rfl
          have hdigits : ((c :: text).takeWhile isHex).filterMap hexDigit =
              digit :: (text.takeWhile isHex).filterMap hexDigit := by
            rw [List.takeWhile_cons, hhex, if_pos rfl, List.filterMap_cons_some hdigit]
          rw [hrest, hdigits]
          change hextoiLoop _ (u32 (val <<< 4) ||| digit) = _
          rw [shift_or_digit (hexDigit_lt hdigit),
            ih (fun h => hnul (List.mem_cons_of_mem c h)) (u32_lt _)]
          have hmod := u32_horner (16 * val + digit) ((text.takeWhile isHex).filterMap hexDigit)
          unfold u32 at hmod ⊢
          rw [Nat.mul_mod, hmod, ← Nat.mul_mod]
          rfl

theorem notMem_unprefixed (h : (0 : UInt8) ∉ text) : (0 : UInt8) ∉ unprefixed text := by
  unfold unprefixed
  split
  · exact fun hmem => h (List.mem_cons_of_mem _ (List.mem_cons_of_mem _ hmem))
  · exact fun hmem => h (List.mem_cons_of_mem _ (List.mem_cons_of_mem _ hmem))
  · exact h

theorem hextoi_memory (text behind : List UInt8) :
    hextoi (text ++ 0 :: behind) = hextoiLoop (unprefixed text ++ 0 :: behind) 0 := by
  unfold hextoi unprefixed
  split
  · next hprefix =>
      match text, hprefix with
      | [c], hprefix => simp at hprefix
      | c :: d :: text, hprefix =>
          obtain ⟨hc, hd⟩ := hprefix
          obtain rfl : c = 48 := by simpa using hc
          rcases hd with hd | hd
          · obtain rfl : d = 120 := by simpa using hd
            rfl
          · obtain rfl : d = 88 := by simpa using hd
            rfl
  · next hprefix =>
      split
      · exact absurd (by simp) hprefix
      · exact absurd (by simp) hprefix
      · rfl

/-- What `hextoi` returns. -/
theorem hextoi_eq (s : CStr) (behind : List UInt8) :
    hextoi (s.memory behind) =
      u32 ((if hexRest (unprefixed s.bytes) = [] then 1 else 16) * hexValue (unprefixed s.bytes)) := by
  rw [CStr.memory, hextoi_memory, hextoiLoop_eq (notMem_unprefixed s.noNul) (by decide), horner_zero]
  rfl

end Loop

/-! ## Printing a number -/

theorem hexDigit_ofNat : ∀ digit < 16,
    hexDigit (UInt8.ofNat (if digit < 10 then 48 + digit else 97 + digit - 10)) = some digit := by
  decide

/-- The eight hexadecimal digits of a word, the highest one first. -/
def nibbles (val : Nat) : List Nat :=
  (List.range 8).map fun (i : Nat) => (val >>> (28 - i * 4)) &&& 0xF

theorem nibble_lt {val digit : Nat} (h : digit ∈ nibbles val) : digit < 16 := by
  obtain ⟨i, -, rfl⟩ := List.mem_map.mp h
  exact Nat.lt_succ_of_le Nat.and_le_right

theorem ofDigits_nibbles {val : Nat} (hval : val < 2 ^ 32) :
    Nat.ofDigits 16 (nibbles val).reverse = val := by
  have hmask : ∀ n, n &&& 0xF = n % 16 := fun n => Nat.and_two_pow_sub_one_eq_mod n 4
  rw [← horner_zero]
  simp only [nibbles, hmask, Nat.shiftRight_eq_div_pow, List.range_succ, List.range_zero, horner,
    List.map_append, List.map_cons, List.map_nil, List.nil_append, List.foldl_append,
    List.foldl_cons, List.foldl_nil]
  omega

/-- The characters of the digits. -/
def hexText (val : Nat) : List UInt8 :=
  (nibbles val).map fun digit => UInt8.ofNat (if digit < 10 then 48 + digit else 97 + digit - 10)

theorem isHex_hexText {val : Nat} {c : UInt8} (h : c ∈ hexText val) : isHex c = true ∧ c ≠ 0 := by
  obtain ⟨digit, hdigit, rfl⟩ := List.mem_map.mp h
  have hhex := hexDigit_ofNat digit (nibble_lt hdigit)
  refine ⟨by rw [isHex, hhex]; rfl, fun hzero => ?_⟩
  rw [hzero] at hhex
  cases hhex

theorem filterMap_hexText (val : Nat) : (hexText val).filterMap hexDigit = nibbles val := by
  rw [hexText, List.filterMap_map]
  calc (nibbles val).filterMap _ = (nibbles val).filterMap some :=
        List.filterMap_congr fun digit hdigit => hexDigit_ofNat digit (nibble_lt hdigit)
    _ = nibbles val := List.filterMap_some

theorem puthex_eq (val : Nat) : puthex val = 48 :: 120 :: hexText val := by
  have hdigits : (List.range 8).map (fun (i : Nat) =>
      UInt8.ofNat (if (val >>> (28 - i * 4)) &&& 0xF < 10 then 48 + ((val >>> (28 - i * 4)) &&& 0xF)
        else 97 + ((val >>> (28 - i * 4)) &&& 0xF) - 10)) = hexText val := by
    rw [hexText, nibbles, List.map_map]
    rfl
  have hall : ∀ c ∈ 48 :: 120 :: hexText val, decide (c ≠ 0) = true := by
    intro c hc
    rw [List.mem_cons, List.mem_cons] at hc
    rcases hc with rfl | rfl | hc
    · rfl
    · rfl
    · exact decide_eq_true (isHex_hexText hc).2
  unfold puthex puts
  dsimp only
  rw [hdigits]
  change (48 :: 120 :: hexText val ++ [0]).takeWhile _ = _
  rw [List.takeWhile_append_of_pos hall]
  exact List.append_nil _

theorem hextoi_puthex {val : Nat} (hval : val < 2 ^ 32) (behind : List UInt8) :
    hextoi (puthex val ++ 0 :: behind) = val := by
  have hall : ∀ c ∈ hexText val, isHex c = true := fun c hc => (isHex_hexText hc).1
  have hrest := List.dropWhile_eq_nil_iff.mpr hall
  have hnul : (0 : UInt8) ∉ hexText val := fun hc => (isHex_hexText hc).2 rfl
  rw [hextoi_memory, puthex_eq]
  change hextoiLoop (hexText val ++ 0 :: behind) 0 = val
  rw [hextoiLoop_eq hnul (by decide), horner_zero, hexRest, hrest,
    if_pos rfl, List.takeWhile_eq_self_iff.mpr hall, filterMap_hexText, ofDigits_nibbles hval,
    Nat.one_mul, u32_of_lt hval]

/-- `hextoi` returns the number in front of a text just when the number is the whole text or zero,
and it reads back what `puthex` prints. -/
theorem hextoi_iff (s : CStr) (behind : List UInt8) :
    (hextoi (s.memory behind) = hexValue (unprefixed s.bytes) % 2 ^ 32 ↔
      hexRest (unprefixed s.bytes) = [] ∨ hexValue (unprefixed s.bytes) % 2 ^ 32 = 0) ∧
      ∀ val < 2 ^ 32, ∀ behind, hextoi (puthex val ++ 0 :: behind) = val := by
  refine ⟨?_, fun val hval behind => hextoi_puthex hval behind⟩
  rw [hextoi_eq]
  unfold u32
  split
  · next hrest => simp [hrest]
  · next hrest =>
      rw [or_iff_right hrest]
      omega

/-- The text `12g` gives `0x120`. -/
theorem hextoi_shifts : hextoi (CStr.memory ⟨[49, 50, 103], by decide⟩ []) = 0x120 ∧
    hexValue (unprefixed [49, 50, 103]) % 2 ^ 32 = 0x12 := by
  decide

end SRos.Shell
