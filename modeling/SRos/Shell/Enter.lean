import SRos.Shell.Keys

/-!
# Enter passes on the line up to the cursor

`shell_main` ends the line at the cursor, not behind its last character. So the command is the
complete line just when the cursor is at its end.
-/

namespace SRos.Shell

/-- The characters of the line. -/
def Editor.content (s : Editor) : List UInt8 := (List.range s.lineLen).map s.line

/-- The cursor is in the line, and the line in its buffer. -/
structure Editing (s : Editor) : Prop where
  pos : s.pos ≤ s.lineLen
  lineLen : s.lineLen ≤ 255
  savedPos : s.savedPos ≤ 255

section Entered

variable {s : Editor}

theorem takeWhile_update {b : Buffer} {n size : Nat} (h : n < size) :
    ((List.range size).map (Function.update b n 0)).takeWhile (· ≠ 0) =
      ((List.range n).map b).takeWhile (· ≠ 0) := by
  obtain ⟨k, rfl⟩ := Nat.exists_eq_add_of_lt h
  have hfront : (List.range n).map (Function.update b n 0) = (List.range n).map b := by
    apply List.map_congr_left
    intro i hi
    have hlt := List.mem_range.mp hi
    exact Function.update_of_ne (by omega) ..
  rw [Nat.add_assoc, List.range_add, List.map_append, hfront, List.range_succ_eq_map,
    List.map_cons, List.map_cons, Nat.add_zero, Function.update_self]
  by_cases hall : ((List.range n).map b).takeWhile (· ≠ 0) = (List.range n).map b
  · rw [List.takeWhile_append, if_pos (by rw [hall]), List.takeWhile_cons, if_neg (by simp), hall,
      List.append_nil]
  · rw [List.takeWhile_append, if_neg]
    intro hlen
    exact hall ((List.takeWhile_prefix _).eq_of_length hlen)

/-- Enter passes on the characters in front of the cursor. -/
theorem entered_eq (h : s.pos < lineSize) : ∃ cmd, entered s = some cmd ∧
    cmd.bytes = ((List.range s.pos).map s.line).takeWhile (· ≠ 0) := by
  have hmem : (0 : UInt8) ∈ (List.range lineSize).map (Function.update s.line s.pos 0) :=
    List.mem_map.mpr ⟨s.pos, List.mem_range.mpr h, Function.update_self ..⟩
  refine ⟨_, if_pos hmem, takeWhile_update h⟩

/-- One press of Enter. -/
theorem entered_content_iff (h : Editing s) :
    (∃ cmd, entered s = some cmd ∧ cmd.bytes = s.content) ↔
      s.pos = s.lineLen ∧ ∀ i < s.lineLen, s.line i ≠ 0 := by
  have hpos := h.pos
  have hlen := h.lineLen
  obtain ⟨cmd, hcmd, hbytes⟩ := entered_eq (s := s) (by unfold lineSize; omega)
  rw [hcmd]
  constructor
  · intro ⟨cmd', hsome, hcontent⟩
    obtain rfl := Option.some.inj hsome
    rw [hbytes] at hcontent
    have hle := (List.takeWhile_prefix (fun b : UInt8 => decide (b ≠ 0))
      (l := (List.range s.pos).map s.line)).length_le
    rw [hcontent, Editor.content, List.length_map, List.length_map, List.length_range,
      List.length_range] at hle
    have heq : s.pos = s.lineLen := by omega
    refine ⟨heq, fun i hi => ?_⟩
    rw [Editor.content, heq, List.takeWhile_eq_self_iff] at hcontent
    simpa using hcontent (s.line i) (List.mem_map.mpr ⟨i, List.mem_range.mpr hi, rfl⟩)
  · intro ⟨heq, hne⟩
    refine ⟨cmd, rfl, ?_⟩
    rw [hbytes, Editor.content, heq, List.takeWhile_eq_self_iff]
    intro b hb
    obtain ⟨i, hi, rfl⟩ := List.mem_map.mp hb
    simpa using hne i (List.mem_range.mp hi)

end Entered

section Run

variable {execute : Buffer → Option Buffer} {s s' : Editor} {c : UInt8}

theorem editing_start (stack : Buffer) : Editing (start stack) :=
  ⟨le_refl _, Nat.zero_le _, Nat.zero_le _⟩

theorem Shown.editing {entry : CStr} (h : Shown s entry s') (hs : Editing s) : Editing s' where
  pos := by rw [h.pos, h.lineLen]
  lineLen := by
    rw [h.lineLen]
    exact Nat.le_of_lt_succ (stringIn_eq_some_iff.mp h.line).1
  savedPos := h.savedPos ▸ hs.savedPos

theorem Saves.editing (h : Saves s s') (hs : Editing s) : Editing s' := by
  by_cases hindex : s.historyIndex = -1
  · obtain ⟨text, -, -, hsaved⟩ := h.input hindex
    refine ⟨?_, h.lineLen ▸ hs.lineLen, hsaved ▸ hs.pos.trans hs.lineLen⟩
    rw [h.pos, h.lineLen]
    exact hs.pos
  · exact h.other hindex ▸ hs

theorem Editing.up (h : Editing s) (hs : up s = some s') : Editing s' := by
  rcases up_cases hs with ⟨-, rfl⟩ | ⟨t, hsaves, ⟨-, entry, -, hshown⟩ | ⟨-, rfl⟩⟩
  · exact h
  · have ht := hsaves.editing h
    exact hshown.editing ⟨ht.pos, ht.lineLen, ht.savedPos⟩
  · exact hsaves.editing h

theorem Editing.down (h : Editing s) (hs : down s = some s') : Editing s' := by
  rcases down_cases hs with ⟨-, rfl⟩ | ⟨-, entry, -, hshown⟩ | ⟨-, -, hrestored⟩
  · exact h
  · exact hshown.editing ⟨h.pos, h.lineLen, h.savedPos⟩
  · refine ⟨?_, hrestored.lineLen ▸ h.savedPos, hrestored.savedPos ▸ h.savedPos⟩
    rw [hrestored.pos, hrestored.lineLen]

theorem Editing.backspace (h : Editing s) : Editing (backspace s) := by
  have hpos := h.pos
  have hlen := h.lineLen
  unfold Shell.backspace
  split
  · have hpos' : s.pos - 1 ≤ s.lineLen - 1 := by omega
    have hlen' : s.lineLen - 1 ≤ 255 := by omega
    exact ⟨hpos', hlen', h.savedPos⟩
  · exact h

theorem Editing.enter (h : Editing s) (hs : enter execute s = some s') : Editing s' := by
  obtain ⟨cmd, -, hs⟩ := Option.bind_eq_some_iff.mp hs
  obtain ⟨line, -, hs⟩ := Option.bind_eq_some_iff.mp hs
  obtain rfl := Option.some.inj hs
  exact ⟨le_refl _, Nat.zero_le _, h.savedPos⟩

/-- Every key leaves the cursor in the line. -/
theorem Editing.key (h : Editing s) (hs : key execute s c = some s') : Editing s' := by
  rcases key_cases hs with hs | rfl | hs | hs | ⟨pos, output, hpos, rfl⟩ |
    ⟨hroom, -, hpos, hlen, -, hsaved, -⟩
  · exact h.enter hs
  · exact h.backspace
  · exact h.up hs
  · exact h.down hs
  · exact ⟨hpos h.pos, h.lineLen, h.savedPos⟩
  · have hold := h.lineLen
    exact ⟨by omega, by omega, hsaved ▸ h.savedPos⟩

theorem Editing.run {keys : List UInt8} (h : Editing s) (hs : keys.foldlM (Shell.key execute) s = some s') :
    Editing s' := by
  induction keys generalizing s with
  | nil => exact Option.some.inj hs ▸ h
  | cons c keys ih =>
      rw [List.foldlM_cons] at hs
      obtain ⟨t, ht, hs⟩ := Option.bind_eq_some_iff.mp hs
      exact ih (h.key ht) hs

end Run

/-- After every sequence of keys, whatever the commands leave in the buffer and the stack holds at
the start: the string that Enter passes to `history_add` and `execute` is the complete line just
when the cursor is at its end and no NUL has been typed into it. -/
theorem enter_passes_line_iff (execute : Buffer → Option Buffer) (stack : Buffer)
    (keys : List UInt8) (s : Editor) (h : keys.foldlM (key execute) (start stack) = some s) :
    (∃ cmd, entered s = some cmd ∧ cmd.bytes = s.content) ↔
      s.pos = s.lineLen ∧ ∀ i < s.lineLen, s.line i ≠ 0 :=
  entered_content_iff ((editing_start stack).run h)

/-- The keys `l` and `s`, for a command that leaves its line. -/
theorem enter_passes_ls : ∃ s, [108, 115].foldlM (key some) (start fun _ => 0) = some s ∧
    ∃ cmd, entered s = some cmd ∧ cmd.bytes = s.content :=
  ⟨_, rfl, (enter_passes_line_iff some (fun _ => 0) [108, 115] _ rfl).mpr ⟨rfl, by decide⟩⟩

/-- The same keys and Left: the command is `l`. -/
theorem enter_cuts_ls : ∃ s, [108, 115, keyLeft].foldlM (key some) (start fun _ => 0) = some s ∧
    ¬ ∃ cmd, entered s = some cmd ∧ cmd.bytes = s.content := by
  refine ⟨_, rfl, ?_⟩
  rw [entered_content_iff ⟨by decide, by decide, by decide⟩]
  intro ⟨hpos, _⟩
  exact absurd hpos (by decide)

end SRos.Shell
