import SRos.Kernel.Strings
import SRos.Shell.Model

/-!
# What the keys do (`src/user/shell.c`)

Strings in the buffers of the editor, and the cases of `up`, `down` and `key`: each with all that it
does to the variables.
-/

namespace SRos.Shell

open Strings

/-! ## Strings in buffers -/

section Buffers

variable {b dest : Buffer} {s src : CStr} {p n : Nat}

theorem holds_takeWhile (h : (0 : UInt8) ∈ (List.range' p n).map b) :
    Holds b p (((List.range' p n).map b).takeWhile (· ≠ 0)) ∧
      (((List.range' p n).map b).takeWhile (· ≠ 0)).length < n := by
  induction n generalizing p with
  | zero => cases h
  | succ n ih =>
      rw [List.range'_succ, List.map_cons] at h ⊢
      by_cases hb : b p = 0
      · rw [List.takeWhile_cons_of_neg (by simp [hb])]
        exact ⟨hb, Nat.zero_lt_succ n⟩
      · obtain ⟨hholds, hlen⟩ := ih ((List.mem_cons.mp h).resolve_left (Ne.symm hb))
        rw [List.takeWhile_cons_of_pos (by simp [hb])]
        exact ⟨⟨rfl, hholds⟩, Nat.succ_lt_succ hlen⟩

theorem holds_takeWhile_range (h : (0 : UInt8) ∈ (List.range n).map b) :
    Holds b 0 (((List.range n).map b).takeWhile (· ≠ 0)) ∧
      (((List.range n).map b).takeWhile (· ≠ 0)).length < n := by
  rw [List.range_eq_range'] at h ⊢
  exact holds_takeWhile h

theorem stringIn_eq_some_iff :
    stringIn b = some s ↔ s.bytes.length < lineSize ∧ Holds b 0 s.bytes := by
  constructor
  · intro h
    by_cases hmem : (0 : UInt8) ∈ (List.range lineSize).map b
    · rw [stringIn, if_pos hmem] at h
      obtain rfl := Option.some.inj h
      exact (holds_takeWhile_range hmem).symm
    · rw [stringIn, if_neg hmem] at h
      cases h
  · intro ⟨hlen, hholds⟩
    have hmem : (0 : UInt8) ∈ (List.range lineSize).map b := by
      refine List.mem_map.mpr ⟨s.bytes.length, List.mem_range.mpr hlen, ?_⟩
      have hnul := hholds.nul
      rwa [Nat.zero_add] at hnul
    have heq := (holds_takeWhile_range hmem).1.unique hholds
      (fun h => by simpa using List.mem_takeWhile_imp h) s.noNul
    rw [stringIn, if_pos hmem]
    cases s
    cases heq
    rfl

theorem stringIn_strcpy {row : Buffer} (h : strcpy dest src = some row) :
    stringIn row = some src := by
  unfold strcpy at h
  split at h
  · next hlen =>
      obtain rfl := Option.some.inj h
      refine stringIn_eq_some_iff.mpr ⟨hlen, .of_get (fun i hi => ?_) ?_⟩
      · simp [hi]
      · simp
  · cases h

theorem exists_strcpy (dest : Buffer) (h : src.bytes.length < lineSize) :
    ∃ row, strcpy dest src = some row ∧ stringIn row = some src :=
  ⟨_, if_pos h, stringIn_strcpy (if_pos h)⟩

theorem ne_zero_of_stringIn (h : stringIn b = some s) {i : Nat} (hi : i < s.bytes.length) :
    b i ≠ 0 := by
  intro hnul
  have hbyte := (stringIn_eq_some_iff.mp h).2.get hi
  rw [Nat.zero_add, hnul] at hbyte
  exact s.noNul (hbyte ▸ List.getElem_mem hi)

/-- The NUL that ends a string. -/
theorem nul_of_stringIn (h : stringIn b = some s) : b s.bytes.length = 0 := by
  have hnul := (stringIn_eq_some_iff.mp h).2.nul
  rwa [Nat.zero_add] at hnul

theorem le_length_of_stringIn (h : stringIn b = some s) (hn : ∀ i < n, b i ≠ 0) :
    n ≤ s.bytes.length := by
  by_contra hlt
  exact hn _ (Nat.lt_of_not_le hlt) (nul_of_stringIn h)

theorem exists_stringIn_iff : (∃ s, stringIn b = some s) ↔ ∃ i < lineSize, b i = 0 := by
  constructor
  · intro ⟨s, hs⟩
    exact ⟨_, (stringIn_eq_some_iff.mp hs).1, nul_of_stringIn hs⟩
  · intro ⟨i, hi, hnul⟩
    exact ⟨_, if_pos (List.mem_map.mpr ⟨i, List.mem_range.mpr hi, hnul⟩)⟩

end Buffers

/-! ## What the keys do -/

section Cases

variable {execute : Buffer → Option Buffer} {s s' t : Editor} {entry : CStr} {c : UInt8}

/-- An entry is shown in place of the input. -/
structure Shown (s : Editor) (entry : CStr) (s' : Editor) : Prop where
  line : stringIn s'.line = some entry
  pos : s'.pos = entry.bytes.length
  lineLen : s'.lineLen = entry.bytes.length
  savedLine : s'.savedLine = s.savedLine
  savedPos : s'.savedPos = s.savedPos
  historyIndex : s'.historyIndex = s.historyIndex
  history : s'.history = s.history

theorem shown_of_showEntry (h : showEntry s entry = some s') : Shown s entry s' := by
  obtain ⟨line, hline, hs⟩ := Option.bind_eq_some_iff.mp h
  obtain rfl := Option.some.inj hs
  exact ⟨stringIn_strcpy hline, rfl, rfl, rfl, rfl, rfl, rfl⟩

theorem exists_showEntry (h : entry.bytes.length < lineSize) : ∃ s', showEntry s entry = some s' := by
  obtain ⟨line, hline, -⟩ := exists_strcpy (clearInput s.pos s).line h
  exact ⟨_, Option.bind_eq_some_iff.mpr ⟨line, hline, rfl⟩⟩

/-- The input is saved before the newest entry is shown. -/
structure Saves (s t : Editor) : Prop where
  line : t.line = s.line
  pos : t.pos = s.pos
  lineLen : t.lineLen = s.lineLen
  historyIndex : t.historyIndex = s.historyIndex
  history : t.history = s.history
  input : s.historyIndex = -1 → ∃ text, stringIn s.line = some text ∧
    stringIn t.savedLine = some text ∧ t.savedPos = s.pos
  other : s.historyIndex ≠ -1 → t = s

theorem saves_of_saveInput (h : saveInput s = some t) : Saves s t := by
  unfold saveInput at h
  split at h
  · next hindex =>
      obtain ⟨text, htext, h⟩ := Option.bind_eq_some_iff.mp h
      obtain ⟨savedLine, hsaved, h⟩ := Option.bind_eq_some_iff.mp h
      obtain rfl := Option.some.inj h
      exact ⟨rfl, rfl, rfl, rfl, rfl, fun _ => ⟨text, htext, stringIn_strcpy hsaved, rfl⟩,
        absurd hindex⟩
  · next hindex =>
      obtain rfl := Option.some.inj h
      exact ⟨rfl, rfl, rfl, rfl, rfl, fun h => absurd h hindex, fun _ => rfl⟩

theorem mem_of_historyEntry {index : Int} (h : historyEntry s index = some entry) :
    entry ∈ s.history :=
  List.mem_of_getElem? h

theorem exists_historyEntry {index : Int} (hlow : 0 ≤ index) (hhigh : index < s.history.length) :
    ∃ entry, historyEntry s index = some entry := by
  have hlt : (s.history.length - 1 - index).toNat < s.history.length := by omega
  exact ⟨_, List.getElem?_eq_getElem hlt⟩

theorem up_cases (h : up s = some s') : (s.history = [] ∧ s' = s) ∨
    ∃ t, Saves s t ∧
      ((t.historyIndex < t.history.length - 1 ∧ ∃ entry ∈ t.history,
        Shown { t with historyIndex := t.historyIndex + 1 } entry s') ∨
      (¬ t.historyIndex < t.history.length - 1 ∧ s' = t)) := by
  unfold up at h
  split at h
  · next hnil => exact .inl ⟨List.length_eq_zero_iff.mp hnil, (Option.some.inj h).symm⟩
  · obtain ⟨t, ht, h⟩ := Option.bind_eq_some_iff.mp h
    refine .inr ⟨t, saves_of_saveInput ht, ?_⟩
    dsimp only at h
    split at h
    · next hlt =>
        obtain ⟨entry, hentry, h⟩ := Option.bind_eq_some_iff.mp h
        exact .inl ⟨hlt, entry, mem_of_historyEntry hentry, shown_of_showEntry h⟩
    · next hge => exact .inr ⟨hge, (Option.some.inj h).symm⟩

/-- The saved input is shown again. -/
structure Restored (s s' : Editor) : Prop where
  line : ∃ text, stringIn s.savedLine = some text ∧ stringIn s'.line = some text
  pos : s'.pos = s.savedPos
  lineLen : s'.lineLen = s.savedPos
  savedLine : s'.savedLine = s.savedLine
  savedPos : s'.savedPos = s.savedPos
  historyIndex : s'.historyIndex = -1
  history : s'.history = s.history

theorem down_cases (h : down s = some s') : (s.historyIndex = -1 ∧ s' = s) ∨
    (s.historyIndex > 0 ∧ ∃ entry ∈ s.history,
      Shown { s with historyIndex := s.historyIndex - 1 } entry s') ∨
    (s.historyIndex ≠ -1 ∧ ¬ s.historyIndex > 0 ∧ Restored s s') := by
  unfold down at h
  split at h
  · next hindex => exact .inl ⟨hindex, (Option.some.inj h).symm⟩
  · next hindex =>
      split at h
      · next hpos =>
          obtain ⟨entry, hentry, h⟩ := Option.bind_eq_some_iff.mp h
          exact .inr (.inl ⟨hpos, entry, mem_of_historyEntry hentry, shown_of_showEntry h⟩)
      · next hpos =>
          obtain ⟨text, htext, h⟩ := Option.bind_eq_some_iff.mp h
          obtain ⟨line, hline, h⟩ := Option.bind_eq_some_iff.mp h
          obtain rfl := Option.some.inj h
          exact .inr (.inr ⟨hindex, hpos, ⟨text, htext, stringIn_strcpy hline⟩, rfl, rfl, rfl, rfl,
            rfl, rfl⟩)

@[simp] theorem backspace_history : (backspace s).history = s.history := by
  unfold backspace
  split <;> rfl

@[simp] theorem backspace_historyIndex : (backspace s).historyIndex = s.historyIndex := by
  unfold backspace
  split <;> rfl

@[simp] theorem backspace_savedLine : (backspace s).savedLine = s.savedLine := by
  unfold backspace
  split <;> rfl

@[simp] theorem backspace_savedPos : (backspace s).savedPos = s.savedPos := by
  unfold backspace
  split <;> rfl

theorem key_cases (h : key execute s c = some s') :
    enter execute s = some s' ∨ s' = backspace s ∨ up s = some s' ∨ down s = some s' ∨
      (∃ pos output, (s.pos ≤ s.lineLen → pos ≤ s.lineLen) ∧ s' = { s with pos, output }) ∨
      (s.pos < 255 ∧ s'.line = Function.update s.line s.pos c ∧ s'.pos = s.pos + 1 ∧
        s'.lineLen = max (s.pos + 1) s.lineLen ∧ s'.savedLine = s.savedLine ∧
        s'.savedPos = s.savedPos ∧ s'.historyIndex = s.historyIndex ∧ s'.history = s.history) := by
  unfold key at h
  split at h
  · exact .inl h
  split at h
  · exact .inr (.inl (Option.some.inj h).symm)
  split at h
  · exact .inr (.inr (.inl h))
  split at h
  · exact .inr (.inr (.inr (.inl h)))
  refine .inr (.inr (.inr (.inr ?_)))
  split at h
  · obtain rfl := Option.some.inj h
    split
    · exact .inl ⟨s.pos - 1, _, fun hle => by omega, rfl⟩
    · exact .inl ⟨s.pos, s.output, id, rfl⟩
  split at h
  · obtain rfl := Option.some.inj h
    split
    · next hlt => exact .inl ⟨s.pos + 1, _, fun _ => hlt, rfl⟩
    · exact .inl ⟨s.pos, s.output, id, rfl⟩
  split at h
  · next hroom =>
      obtain rfl := Option.some.inj h
      refine .inr ⟨hroom, rfl, rfl, ?_, rfl, rfl, rfl, rfl⟩
      change (if s.pos + 1 > s.lineLen then s.pos + 1 else s.lineLen) = max (s.pos + 1) s.lineLen
      split <;> omega
  · obtain rfl := Option.some.inj h
    exact .inl ⟨s.pos, s.output, id, rfl⟩

end Cases

end SRos.Shell
