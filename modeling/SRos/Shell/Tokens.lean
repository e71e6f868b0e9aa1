import SRos.Kernel.Strings
import SRos.Lib.Fields
import SRos.Shell.Model

/-!
# Splitting a command (`src/user/shell.c`)

`parse_command` splits the line in place. Its loops only ever look ahead, and the NULs that it
stores are behind its pointer, so each round sees the rest of the line as it was.
-/

namespace SRos.Shell

open Fields Strings

/-- The line, the pointers in `argv`, and the places in the line at which a NUL has been stored. -/
structure Parse where
  line : Buffer
  argv : List Nat
  stores : List Nat

/-- `argv[argc++] = p`. -/
def Parse.arg (s : Parse) (p : Nat) : Parse := { s with argv := s.argv ++ [p] }

/-- `*p = '\0'`. -/
def Parse.cut (s : Parse) (p : Nat) : Parse :=
  { s with line := Function.update s.line p 0, stores := s.stores ++ [p] }

/-- A loop that moves `p` on while a test of `*p` holds, for `fuel` rounds. -/
def scan (test : UInt8 → Bool) (line : Buffer) : Nat → Nat → Option Nat
  | 0, _ => none
  | fuel + 1, p => if test (line p) then scan test line fuel (p + 1) else some p

/-- The test `*p == ' '`. -/
def isSpace (c : UInt8) : Bool := c = 32

/-- The test `*p && *p != ' '`. -/
def isWord (c : UInt8) : Bool := c ≠ 0 ∧ c ≠ 32

/-- The loop of `parse_command`, for `fuel` rounds. -/
def parseLoop (maxArgs : Nat) : Nat → Nat → Parse → Option Parse
  | 0, _, _ => none
  | fuel + 1, p, s =>
      if s.line p = 0 then some s
      else do
        let p ← scan isSpace s.line (fuel + 1) p
        if s.line p = 0 then return s
        else if s.argv.length ≥ maxArgs then return s
        else
          let s := s.arg p
          let p ← scan isWord s.line (fuel + 1) p
          if s.line p ≠ 0 then parseLoop maxArgs fuel (p + 1) (s.cut p)
          else parseLoop maxArgs fuel p s

def parseCommand (fuel : Nat) (line : Buffer) (maxArgs : Nat) : Option Parse :=
  parseLoop maxArgs fuel 0 { line, argv := [], stores := [] }

/-- The words of a command. -/
def commandWords (text : List UInt8) : List (List UInt8) := words isSpace text

section Loop

variable {line : Buffer} {text : List UInt8} {p q fuel maxArgs : Nat} {s : Parse}

theorem scan_eq (test : UInt8 → Bool) (h : Holds line p text) (hstop : test 0 = false)
    (hfuel : text.length < fuel) :
    scan test line fuel p = some (p + (text.takeWhile test).length) := by
  induction text generalizing p fuel with
  | nil =>
      obtain ⟨fuel, rfl⟩ := Nat.exists_eq_succ_of_ne_zero (Nat.ne_zero_of_lt hfuel)
      have hnul : line p = 0 := h
      simp [scan, hnul, hstop]
  | cons c text ih =>
      obtain ⟨fuel, rfl⟩ := Nat.exists_eq_succ_of_ne_zero (Nat.ne_zero_of_lt hfuel)
      rw [List.takeWhile_cons, scan, h.1]
      split
      · rw [ih h.2 (Nat.lt_of_succ_lt_succ hfuel), List.length_cons, Nat.add_assoc, Nat.add_comm 1]
      · rfl

/-- What a run of the loop from `p` on, where the rest of the line is `text`, adds to its state. -/
structure Splits (maxArgs p : Nat) (text : List UInt8) (s : Parse) (ps qs : List Nat)
    (s' : Parse) : Prop where
  argv : s'.argv = s.argv ++ ps
  stores : s'.stores = s.stores ++ qs
  line : ∀ i, s'.line i = if i ∈ qs then 0 else s.line i
  args : List.Forall₂ (Holds s'.line) ps ((commandWords text).take (maxArgs - s.argv.length))
  spaces : ∀ q ∈ qs, (p ≤ q ∧ q < p + text.length) ∧ s.line q = 32

/-- The loop ends where no word is left or `argv` is full. -/
theorem splits_stop (h : (commandWords text).take (maxArgs - s.argv.length) = []) :
    Splits maxArgs p text s [] [] s where
  argv := (List.append_nil _).symm
  stores := (List.append_nil _).symm
  line _ := (if_neg List.not_mem_nil).symm
  args := h ▸ List.Forall₂.nil
  spaces := nofun

/-- Spaces in front of the rest of the line. -/
theorem Splits.skip {ps qs : List Nat} {front : List UInt8} {s' : Parse}
    (h : Splits maxArgs (p + front.length) text s ps qs s')
    (hwords : commandWords (front ++ text) = commandWords text) :
    Splits maxArgs p (front ++ text) s ps qs s' where
  argv := h.argv
  stores := h.stores
  line := h.line
  args := hwords ▸ h.args
  spaces q hq := by
    obtain ⟨hrange, hspace⟩ := h.spaces q hq
    rw [List.length_append]
    exact ⟨by omega, hspace⟩

/-- A word that a space ends, and the rest of the line behind it. -/
theorem Splits.word {word : List UInt8} {ps qs : List Nat} {s' : Parse}
    (hline : Holds s.line p (word ++ 32 :: text)) (hne : word ≠ [])
    (hword : ∀ c ∈ word, isSpace c = false) (hroom : s.argv.length < maxArgs)
    (h : Splits maxArgs (p + word.length + 1) text ((s.arg p).cut (p + word.length)) ps qs s') :
    Splits maxArgs p (word ++ 32 :: text) s (p :: ps) ((p + word.length) :: qs) s' where
  argv := by
    rw [h.argv]
    exact List.append_assoc ..
  stores := by
    rw [h.stores]
    exact List.append_assoc ..
  line i := by
    rw [h.line]
    by_cases hi : i = p + word.length
    · simp [hi, Parse.cut]
    · simp [hi, Parse.cut, Parse.arg]
  args := by
    have hrest := h.args
    have hwords : commandWords (word ++ 32 :: text) = word :: commandWords text := by
      rw [commandWords, words_append_cons word text rfl, words_of_forall hne hword]
      rfl
    have hcount : maxArgs - s.argv.length = maxArgs - (s.argv.length + 1) + 1 := by omega
    have hargs : ((s.arg p).cut (p + word.length)).argv.length = s.argv.length + 1 :=
      List.length_append
    rw [hargs] at hrest
    rw [hwords, hcount, List.take_succ_cons]
    have hnul : s'.line (p + word.length) = 0 := by
      rw [h.line]
      split
      · rfl
      · exact Function.update_self ..
    refine List.Forall₂.cons (hline.cut hnul fun i hlow hhigh => ?_) hrest
    have hkept : i ∉ qs := by
      intro hi
      have hrange := (h.spaces i hi).1
      omega
    rw [h.line, if_neg hkept]
    exact Function.update_of_ne (by omega) ..
  spaces q hq := by
    rw [List.length_append, List.length_cons]
    rcases List.mem_cons.mp hq with rfl | hq
    · exact ⟨by omega, hline.append_right.1⟩
    · obtain ⟨hrange, hspace⟩ := h.spaces q hq
      have hkept : ((s.arg p).cut (p + word.length)).line q = s.line q :=
        Function.update_of_ne (by omega) ..
      rw [hkept] at hspace
      exact ⟨by omega, hspace⟩

/-- The last word, which the NUL of the line ends. -/
theorem splits_last (hline : Holds s.line p text) (hne : text ≠ [])
    (hword : ∀ c ∈ text, isSpace c = false) (hroom : s.argv.length < maxArgs) :
    Splits maxArgs p text s [p] [] (s.arg p) where
  argv := rfl
  stores := (List.append_nil _).symm
  line _ := (if_neg List.not_mem_nil).symm
  args := by
    have hwords : commandWords text = [text] := words_of_forall hne hword
    rw [hwords, List.take_of_length_le (by rw [List.length_singleton]; omega)]
    exact List.Forall₂.cons hline .nil
  spaces := nofun

/-- What the loop over the characters of a word passes. -/
theorem exists_word (hnul : (0 : UInt8) ∉ text) : ∃ word rest, text = word ++ rest ∧
    text.takeWhile isWord = word ∧ (∀ c ∈ word, isSpace c = false) ∧
      (rest = [] ∨ ∃ tail, rest = 32 :: tail) := by
  refine ⟨_, text.dropWhile isWord, (List.takeWhile_append_dropWhile).symm, rfl,
    fun c hc => ?_, ?_⟩
  · have htest := List.mem_takeWhile_imp hc
    exact decide_eq_false (of_decide_eq_true htest).2
  · cases hrest : text.dropWhile isWord with
    | nil => exact .inl rfl
    | cons c tail =>
        have hstop := List.head?_dropWhile_not isWord text
        have hmem : c ∈ text := (List.dropWhile_sublist _).mem (hrest ▸ List.mem_cons_self)
        have hc : c ≠ 0 := fun hzero => hnul (hzero ▸ hmem)
        rw [hrest] at hstop
        have h32 : c = 32 := by simpa [isWord, hc] using hstop
        exact .inr ⟨tail, by rw [h32]⟩

/-- A round of the loop from the start of a word on, given its next rounds. -/
theorem parseLoop_word {c : UInt8} (hnul : (0 : UInt8) ∉ c :: text)
    (h : Holds s.line p (c :: text)) (hc : isSpace c = false) (hroom : s.argv.length < maxArgs)
    (hfuel : text.length < fuel)
    (ih : ∀ {text : List UInt8} {p : Nat} {s : Parse}, (0 : UInt8) ∉ text → Holds s.line p text →
      text.length < fuel →
      ∃ ps qs s', parseLoop maxArgs fuel p s = some s' ∧ Splits maxArgs p text s ps qs s') :
    ∃ q ps qs s', scan isWord s.line (fuel + 1) p = some q ∧
      (if s.line q ≠ 0 then parseLoop maxArgs fuel (q + 1) ((s.arg p).cut q)
        else parseLoop maxArgs fuel q (s.arg p)) = some s' ∧
      Splits maxArgs p (c :: text) s ps qs s' := by
  have hscan := scan_eq isWord h rfl (Nat.succ_lt_succ hfuel)
  obtain ⟨word, rest, hsplit, htake, hword, hrest⟩ := exists_word hnul
  have hne : word ≠ [] := by
    intro hnil
    have hstart : isWord c = true :=
      decide_eq_true ⟨ne_zero_of_notMem hnul, of_decide_eq_false hc⟩
    rw [hnil, List.takeWhile_cons, if_pos hstart] at htake
    cases htake
  rw [htake] at hscan
  rw [hsplit] at h ⊢
  have hat := h.append_right
  have hlength := congrArg List.length hsplit
  rw [List.length_cons, List.length_append] at hlength
  refine ⟨p + word.length, ?_⟩
  rcases hrest with rfl | ⟨tail, rfl⟩
  · rw [List.append_nil] at h ⊢
    have hend : s.line (p + word.length) = 0 := hat
    obtain ⟨fuel, rfl⟩ := Nat.exists_eq_succ_of_ne_zero (Nat.ne_zero_of_lt hfuel)
    refine ⟨_, _, _, hscan, ?_, splits_last h hne hword hroom⟩
    rw [if_neg (not_not.mpr hend), parseLoop]
    exact if_pos hend
  · have hspace : s.line (p + word.length) = 32 := hat.1
    rw [if_pos (by rw [hspace]; decide)]
    have hmem : ∀ b ∈ tail, b ∈ c :: text := by
      intro b hb
      rw [hsplit]
      exact List.mem_append_right word (List.mem_cons_of_mem 32 hb)
    have htail : Holds ((s.arg p).cut (p + word.length)).line (p + word.length + 1) tail :=
      hat.2.congr fun i hlow _ => Function.update_of_ne (by omega) ..
    rw [List.length_cons] at hlength
    obtain ⟨ps, qs, s', hrun, hsplits⟩ := ih (fun hb => hnul (hmem 0 hb)) htail (by omega)
    exact ⟨_, _, s', hscan, hrun, hsplits.word h hne hword hroom⟩

/-- What the loop over spaces passes, and the rest of the line. -/
theorem exists_spaces (text : List UInt8) : ∃ front back, text = front ++ back ∧
    text.takeWhile isSpace = front ∧ commandWords (front ++ back) = commandWords back ∧
      ∀ c ∈ back.head?, isSpace c = false := by
  refine ⟨_, text.dropWhile isSpace, (List.takeWhile_append_dropWhile).symm, rfl, ?_, ?_⟩
  · rw [List.takeWhile_append_dropWhile]
    exact (words_dropWhile text).symm
  · intro c hc
    have hstop := List.head?_dropWhile_not isSpace text
    rw [Option.mem_def.mp hc] at hstop
    simpa using hstop

/-- The loop from `p` on. -/
theorem parseLoop_splits (hnul : (0 : UInt8) ∉ text) (h : Holds s.line p text)
    (hfuel : text.length < fuel) :
    ∃ ps qs s', parseLoop maxArgs fuel p s = some s' ∧ Splits maxArgs p text s ps qs s' := by
  induction fuel generalizing p text s with
  | zero => cases hfuel
  | succ fuel ih =>
      rw [parseLoop]
      by_cases htext : s.line p = 0
      · cases text with
        | nil =>
            refine ⟨_, _, s, if_pos htext, splits_stop ?_⟩
            rw [commandWords, words_nil, List.take_nil]
        | cons c text => exact absurd (h.1.symm.trans htext) (ne_zero_of_notMem hnul)
      rw [if_neg htext]
      have hscan := scan_eq isSpace h rfl hfuel
      obtain ⟨front, back, hsplit, htake, hwords, hhead⟩ := exists_spaces text
      rw [htake] at hscan
      rw [hsplit] at h hnul hfuel ⊢
      have hback := h.append_right
      rw [List.length_append] at hfuel
      simp only [hscan, Option.bind_eq_bind, Option.bind_some]
      cases back with
      | nil =>
          refine ⟨_, _, s, if_pos hback, Splits.skip (splits_stop ?_) hwords⟩
          rw [commandWords, words_nil, List.take_nil]
      | cons c back =>
          have hnul' : (0 : UInt8) ∉ c :: back := fun hmem => hnul (List.mem_append_right _ hmem)
          rw [if_neg (hback.1 ▸ ne_zero_of_notMem hnul')]
          by_cases hroom : s.argv.length ≥ maxArgs
          · refine ⟨_, _, s, if_pos hroom, Splits.skip (splits_stop ?_) hwords⟩
            rw [Nat.sub_eq_zero_of_le hroom, List.take_zero]
          · rw [if_neg hroom]
            rw [List.length_cons] at hfuel
            obtain ⟨q, ps, qs, s', hq, hrun, hsplits⟩ := parseLoop_word hnul' hback
              (hhead c rfl) (Nat.lt_of_not_le hroom) (by omega) ih
            exact ⟨ps, qs, s', Option.bind_eq_some_iff.mpr ⟨q, hq, hrun⟩, hsplits.skip hwords⟩

end Loop

/-- `parse_command` ends on every line. Its arguments are the first words of the line, as strings
in the line that it leaves, and all that it has stored are NULs over spaces. -/
theorem parseCommand_words (line : Buffer) (text : List UInt8) (maxArgs fuel : Nat)
    (hnul : (0 : UInt8) ∉ text) (h : Holds line 0 text) (hfuel : text.length < fuel) :
    ∃ s, parseCommand fuel line maxArgs = some s ∧
      s.argv.length = min (commandWords text).length maxArgs ∧
      List.Forall₂ (Holds s.line) s.argv ((commandWords text).take s.argv.length) ∧
      (∀ i, s.line i = if i ∈ s.stores then 0 else line i) ∧
      ∀ q ∈ s.stores, q < text.length ∧ line q = 32 := by
  obtain ⟨ps, qs, s, hrun, hsplits⟩ :=
    @parseLoop_splits text 0 fuel maxArgs { line, argv := [], stores := [] } hnul h hfuel
  have hargv : s.argv = ps := hsplits.argv
  have hstores : s.stores = qs := hsplits.stores
  have hargs : List.Forall₂ (Holds s.line) s.argv ((commandWords text).take maxArgs) :=
    hargv ▸ hsplits.args
  have hcount : s.argv.length = min (commandWords text).length maxArgs := by
    rw [hargs.length_eq, List.length_take, Nat.min_comm]
  refine ⟨s, hrun, hcount, ?_, hstores ▸ hsplits.line, fun q hq => ?_⟩
  · rw [hcount, Nat.min_comm, ← List.take_eq_take_min]
    exact hargs
  · obtain ⟨⟨-, hlt⟩, hspace⟩ := hsplits.spaces q (hstores ▸ hq)
    rw [Nat.zero_add] at hlt
    exact ⟨hlt, hspace⟩

/-- The line ` cat  a`. -/
theorem parseCommand_cat :
    ∃ s, parseCommand 8 (fun i => [32, 99, 97, 116, 32, 32, 97].getD i 0) 16 = some s ∧
      s.argv.length = 2 ∧
      List.Forall₂ (Holds s.line) s.argv ([[99, 97, 116], [97]].take s.argv.length) ∧
      (∀ i, s.line i = if i ∈ s.stores then 0 else [32, 99, 97, 116, 32, 32, 97].getD i 0) ∧
      ∀ q ∈ s.stores, q < 7 ∧ [(32 : UInt8), 99, 97, 116, 32, 32, 97].getD q 0 = 32 :=
  parseCommand_words (fun i => [32, 99, 97, 116, 32, 32, 97].getD i 0)
    [32, 99, 97, 116, 32, 32, 97] 16 8 (by decide) (by simp [Holds]) (by decide)

end SRos.Shell
