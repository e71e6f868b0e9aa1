import SRos.Input.Modifiers
import SRos.Shell.Enter
import SRos.Shell.History

/-!
# The draft behind the history (`src/user/shell.c`)

`KEY_UP` saves the line as a string, and the cursor. `KEY_DOWN` takes the saved cursor for the
length of the line too, so what is behind the cursor is lost.
-/

namespace SRos.Shell

/-! ## What every key keeps -/

section History

variable {history : List CStr} {cmd entry : CStr}

theorem mem_historyAdd (h : entry ∈ historyAdd history cmd) : entry ∈ history ∨ entry = cmd := by
  unfold historyAdd at h
  split at h
  · exact .inl h
  split at h
  · exact .inl h
  split at h
  · rcases List.mem_append.mp h with h | h
    · exact .inl (List.mem_of_mem_tail h)
    · exact .inr (List.mem_singleton.mp h)
  · rcases List.mem_append.mp h with h | h
    · exact .inl h
    · exact .inr (List.mem_singleton.mp h)

theorem length_historyAdd_le (h : history.length ≤ historyMax) :
    (historyAdd history cmd).length ≤ historyMax := by
  have hpos : 0 < historyMax := Nat.zero_lt_succ _
  unfold historyAdd
  split
  · exact h
  split
  · exact h
  split
  · rw [List.length_append, List.length_tail, List.length_singleton]
    omega
  · rw [List.length_append, List.length_singleton]
    omega

end History

/-- The variables of the history fit to its rows. -/
structure Sound (s : Editor) : Prop extends Editing s where
  room : s.history.length ≤ historyMax
  entries : ∀ entry ∈ s.history, entry.bytes.length < lineSize
  index_ge : -1 ≤ s.historyIndex
  index_lt : s.historyIndex < s.history.length
  saved : ∃ text, stringIn s.savedLine = some text

/-- Moreover the line has no NUL in it, and the saved cursor is in the saved line. -/
structure Kept (s : Editor) : Prop extends Sound s where
  content : ∀ i < s.lineLen, s.line i ≠ 0
  draft : s.historyIndex ≠ -1 →
    ∀ text, stringIn s.savedLine = some text → s.savedPos ≤ text.bytes.length

section Keys

variable {execute : Buffer → Option Buffer} {s s' t : Editor} {entry text : CStr} {c : UInt8}

theorem Sound.of_eq (h : Sound s) (he : Editing s') (hhistory : s'.history = s.history)
    (hindex : s'.historyIndex = s.historyIndex) (hsaved : s'.savedLine = s.savedLine) : Sound s' where
  toEditing := he
  room := hhistory ▸ h.room
  entries := hhistory ▸ h.entries
  index_ge := hindex ▸ h.index_ge
  index_lt := by rw [hindex, hhistory]; exact h.index_lt
  saved := hsaved ▸ h.saved

theorem Saves.sound (h : Saves s t) (hs : Sound s) : Sound t := by
  by_cases hindex : s.historyIndex = -1
  · obtain ⟨text, -, hsaved, -⟩ := h.input hindex
    refine ⟨h.editing hs.toEditing, h.history ▸ hs.room, h.history ▸ hs.entries,
      h.historyIndex ▸ hs.index_ge, ?_, text, hsaved⟩
    rw [h.historyIndex, h.history]
    exact hs.index_lt
  · exact h.other hindex ▸ hs

theorem Sound.enter (h : Sound s) (hs : enter execute s = some s') : Sound s' := by
  have he := h.toEditing.enter hs
  obtain ⟨cmd, hcmd, hs⟩ := Option.bind_eq_some_iff.mp hs
  obtain ⟨line, -, hs⟩ := Option.bind_eq_some_iff.mp hs
  obtain rfl := Option.some.inj hs
  refine ⟨he, length_historyAdd_le h.room, fun entry hentry => ?_, le_refl _, ?_, h.saved⟩
  · rcases mem_historyAdd hentry with hold | rfl
    · exact h.entries entry hold
    · exact (stringIn_eq_some_iff.mp hcmd).1
  · change (-1 : Int) < (historyAdd _ _).length
    omega

theorem Sound.up (h : Sound s) (hs : up s = some s') : Sound s' := by
  have he := h.toEditing.up hs
  rcases up_cases hs with ⟨-, rfl⟩ | ⟨t, hsaves, ⟨hlt, entry, -, hshown⟩ | ⟨-, rfl⟩⟩
  · exact h
  · have ht := hsaves.sound h
    have hindex : s'.historyIndex = t.historyIndex + 1 := hshown.historyIndex
    have hhistory : s'.history = t.history := hshown.history
    have hsaved : s'.savedLine = t.savedLine := hshown.savedLine
    have hge := ht.index_ge
    exact ⟨he, hhistory ▸ ht.room, hhistory ▸ ht.entries, by omega, by rw [hhistory]; omega,
      hsaved ▸ ht.saved⟩
  · exact hsaves.sound h

theorem Sound.down (h : Sound s) (hs : down s = some s') : Sound s' := by
  have he := h.toEditing.down hs
  have hlt := h.index_lt
  rcases down_cases hs with ⟨-, rfl⟩ | ⟨hpos, entry, -, hshown⟩ | ⟨-, -, hrestored⟩
  · exact h
  · have hindex : s'.historyIndex = s.historyIndex - 1 := hshown.historyIndex
    have hhistory : s'.history = s.history := hshown.history
    have hsaved : s'.savedLine = s.savedLine := hshown.savedLine
    exact ⟨he, hhistory ▸ h.room, hhistory ▸ h.entries, by omega, by rw [hhistory]; omega,
      hsaved ▸ h.saved⟩
  · have hindex := hrestored.historyIndex
    have hhistory := hrestored.history
    exact ⟨he, hhistory ▸ h.room, hhistory ▸ h.entries, by omega, by rw [hindex]; omega,
      hrestored.savedLine ▸ h.saved⟩

theorem Sound.key (h : Sound s) (hs : key execute s c = some s') : Sound s' := by
  have he := h.toEditing.key hs
  rcases key_cases hs with hs | rfl | hs | hs | ⟨pos, output, -, rfl⟩ |
    ⟨-, -, -, -, hsaved, -, hindex, hhistory⟩
  · exact h.enter hs
  · exact h.of_eq he backspace_history backspace_historyIndex backspace_savedLine
  · exact h.up hs
  · exact h.down hs
  · exact h.of_eq he rfl rfl rfl
  · exact h.of_eq he hhistory hindex hsaved

/-- The characters behind the deleted one move to the left. -/
theorem foldl_shift (line : Buffer) (p n i : Nat) :
    (List.range' p n).foldl (fun line i => Function.update line i (line (i + 1))) line i =
      if p ≤ i ∧ i < p + n then line (i + 1) else line i := by
  induction n generalizing p line with
  | zero => simp
  | succ n ih =>
      rw [List.range'_succ, List.foldl_cons, ih]
      by_cases hi : i = p
      · subst hi
        simp
      · by_cases hin : p + 1 ≤ i ∧ i < p + 1 + n
        · rw [if_pos hin, if_pos (by omega), Function.update_of_ne (by omega)]
        · rw [if_neg hin, if_neg (by omega), Function.update_of_ne hi]

theorem backspace_content (h : ∀ i < s.lineLen, s.line i ≠ 0) :
    ∀ i < (backspace s).lineLen, (backspace s).line i ≠ 0 := by
  unfold backspace
  split
  · intro i hi
    change i < s.lineLen - 1 at hi
    change Function.update _ (s.lineLen - 1) 0 i ≠ 0
    rw [Function.update_of_ne (by omega), foldl_shift]
    split
    · exact h (i + 1) (by omega)
    · exact h i (by omega)
  · exact h

theorem Saves.draft (h : Saves s t) (hs : Kept s) (htext : stringIn t.savedLine = some text) :
    t.savedPos ≤ text.bytes.length := by
  by_cases hindex : s.historyIndex = -1
  · obtain ⟨input, hinput, hsaved, hpos⟩ := h.input hindex
    obtain rfl := Option.some.inj (htext.symm.trans hsaved)
    rw [hpos]
    exact hs.pos.trans (le_length_of_stringIn hinput hs.content)
  · obtain rfl := h.other hindex
    exact hs.draft hindex text htext

theorem Kept.up (h : Kept s) (hs : up s = some s') : Kept s' := by
  have hsound := h.toSound.up hs
  rcases up_cases hs with ⟨-, rfl⟩ | ⟨t, hsaves, ⟨-, entry, -, hshown⟩ | ⟨-, rfl⟩⟩
  · exact h
  · have hline : s'.savedLine = t.savedLine := hshown.savedLine
    have hpos : s'.savedPos = t.savedPos := hshown.savedPos
    refine ⟨hsound, fun i hi => ?_, fun _ text htext => ?_⟩
    · exact ne_zero_of_stringIn hshown.line (hshown.lineLen ▸ hi)
    · rw [hpos]
      exact hsaves.draft h (hline ▸ htext)
  · refine ⟨hsound, ?_, fun _ text htext => hsaves.draft h htext⟩
    rw [hsaves.line, hsaves.lineLen]
    exact h.content

theorem Kept.down (h : Kept s) (hs : down s = some s') : Kept s' := by
  have hsound := h.toSound.down hs
  rcases down_cases hs with ⟨-, rfl⟩ | ⟨hpos, entry, -, hshown⟩ | ⟨hindex, -, hrestored⟩
  · exact h
  · have hline : s'.savedLine = s.savedLine := hshown.savedLine
    have hsaved : s'.savedPos = s.savedPos := hshown.savedPos
    refine ⟨hsound, fun i hi => ?_, fun _ text htext => ?_⟩
    · exact ne_zero_of_stringIn hshown.line (hshown.lineLen ▸ hi)
    · rw [hsaved]
      exact h.draft (by omega) text (hline ▸ htext)
  · obtain ⟨text, htext, hline⟩ := hrestored.line
    refine ⟨hsound, fun i hi => ?_, fun hne => absurd hrestored.historyIndex hne⟩
    rw [hrestored.lineLen] at hi
    exact ne_zero_of_stringIn hline (Nat.lt_of_lt_of_le hi (h.draft hindex text htext))

theorem Kept.enter (h : Kept s) (hs : enter execute s = some s') : Kept s' := by
  have hsound := h.toSound.enter hs
  obtain ⟨cmd, -, hs⟩ := Option.bind_eq_some_iff.mp hs
  obtain ⟨line, -, hs⟩ := Option.bind_eq_some_iff.mp hs
  obtain rfl := Option.some.inj hs
  exact ⟨hsound, nofun, fun hne => absurd rfl hne⟩

theorem Kept.key (h : Kept s) (hc : c ≠ 0) (hs : key execute s c = some s') : Kept s' := by
  have hsound := h.toSound.key hs
  have hpos := h.pos
  rcases key_cases hs with hs | rfl | hs | hs | ⟨pos, output, -, rfl⟩ |
    ⟨-, hline, -, hlen, hsaved, hsavedPos, hindex, -⟩
  · exact h.enter hs
  · exact ⟨hsound, backspace_content h.content, by simpa using h.draft⟩
  · exact h.up hs
  · exact h.down hs
  · exact ⟨hsound, h.content, h.draft⟩
  · refine ⟨hsound, fun i hi => ?_, ?_⟩
    · rw [hlen] at hi
      rw [hline]
      by_cases hcursor : i = s.pos
      · rw [hcursor, Function.update_self]
        exact hc
      · rw [Function.update_of_ne hcursor]
        exact h.content i (by omega)
    · rw [hsaved, hsavedPos, hindex]
      exact h.draft

theorem kept_start (stack : Buffer) : Kept (start stack) where
  toEditing := editing_start stack
  room := Nat.zero_le _
  entries := nofun
  index_ge := le_refl _
  index_lt := Int.negSucc_lt_zero 0
  saved := ⟨CStr.empty, stringIn_eq_some_iff.mpr ⟨by decide, rfl⟩⟩
  content := nofun
  draft := absurd rfl

theorem Kept.run {keys : List UInt8} (h : Kept s) (hkeys : ∀ c ∈ keys, c ≠ 0)
    (hs : keys.foldlM (Shell.key execute) s = some s') : Kept s' := by
  induction keys generalizing s with
  | nil => exact Option.some.inj hs ▸ h
  | cons c keys ih =>
      rw [List.foldlM_cons] at hs
      obtain ⟨t, ht, hs⟩ := Option.bind_eq_some_iff.mp hs
      exact ih (h.key (hkeys c List.mem_cons_self) ht)
        (fun c hc => hkeys c (List.mem_cons_of_mem _ hc)) hs

theorem exists_saveInput (hline : s.historyIndex = -1 → ∃ text, stringIn s.line = some text) :
    ∃ t, saveInput s = some t := by
  unfold saveInput
  split
  · next hindex =>
      obtain ⟨text, htext⟩ := hline hindex
      obtain ⟨savedLine, hsaved, -⟩ := exists_strcpy s.savedLine (stringIn_eq_some_iff.mp htext).1
      exact ⟨_, Option.bind_eq_some_iff.mpr
        ⟨text, htext, Option.bind_eq_some_iff.mpr ⟨savedLine, hsaved, rfl⟩⟩⟩
  · exact ⟨s, rfl⟩

/-- The entry at an index of the history is shown. -/
theorem Sound.exists_show (h : Sound s) (index : Int) (hlow : 0 ≤ index)
    (hhigh : index < s.history.length) :
    ∃ s', (do
      let entry ← historyEntry { s with historyIndex := index } index
      showEntry { s with historyIndex := index } entry) = some s' := by
  obtain ⟨entry, hentry⟩ :=
    @exists_historyEntry { s with historyIndex := index } index hlow hhigh
  obtain ⟨s', hs'⟩ := @exists_showEntry { s with historyIndex := index } entry
    (h.entries entry (mem_of_historyEntry hentry))
  exact ⟨s', Option.bind_eq_some_iff.mpr ⟨entry, hentry, hs'⟩⟩

/-- `KEY_UP` works if the input ends in its buffer. -/
theorem Sound.exists_up (h : Sound s)
    (hline : s.historyIndex = -1 → ∃ text, stringIn s.line = some text) :
    ∃ s', Shell.up s = some s' := by
  unfold Shell.up
  split
  · exact ⟨s, rfl⟩
  · obtain ⟨t, ht⟩ := exists_saveInput hline
    have hsound := (saves_of_saveInput ht).sound h
    have hge := hsound.index_ge
    rw [ht]
    by_cases hlt : t.historyIndex < t.history.length - 1
    · obtain ⟨s', hs'⟩ := hsound.exists_show (t.historyIndex + 1) (by omega) (by omega)
      refine ⟨s', ?_⟩
      simp only [Option.bind_eq_bind, Option.bind_some, if_pos hlt]
      exact hs'
    · exact ⟨t, by simp [hlt]⟩

theorem Sound.exists_down (h : Sound s) : ∃ s', Shell.down s = some s' := by
  have hlt := h.index_lt
  have hge := h.index_ge
  unfold Shell.down
  split
  · exact ⟨s, rfl⟩
  split
  · exact h.exists_show (s.historyIndex - 1) (by omega) (by omega)
  · obtain ⟨text, htext⟩ := h.saved
    obtain ⟨line, hline, -⟩ := exists_strcpy s.line (stringIn_eq_some_iff.mp htext).1
    exact ⟨_, Option.bind_eq_some_iff.mpr
      ⟨text, htext, Option.bind_eq_some_iff.mpr ⟨line, hline, rfl⟩⟩⟩

end Keys

/-! ## Up and Down -/

/-- Every sequence of Up and Down that comes back from the history leaves the line, its length and
the cursor as they were. -/
def Restores (execute : Buffer → Option Buffer) (s : Editor) : Prop :=
  ∀ keys : List UInt8, (∀ c ∈ keys, c = keyUp ∨ c = keyDown) →
    ∃ s', keys.foldlM (key execute) s = some s' ∧
      (s'.historyIndex = -1 →
        s'.content = s.content ∧ s'.lineLen = s.lineLen ∧ s'.pos = s.pos)

/-- Up and Down from a state on whose line is `text`. -/
structure Browsing (s : Editor) (text : CStr) (t : Editor) : Prop where
  sound : Sound t
  input : t.historyIndex = -1 → stringIn t.line = some text ∧ t.pos = s.pos ∧ t.lineLen = s.pos
  saved : t.historyIndex ≠ -1 → stringIn t.savedLine = some text ∧ t.savedPos = s.pos

section Browse

variable {execute : Buffer → Option Buffer} {s s' t : Editor} {text : CStr} {c : UInt8}

theorem Saves.browsing (h : Browsing s text t) {t' : Editor} (hsaves : Saves t t') :
    stringIn t'.savedLine = some text ∧ t'.savedPos = s.pos := by
  by_cases hindex : t.historyIndex = -1
  · obtain ⟨input, hinput, hsaved, hpos⟩ := hsaves.input hindex
    obtain ⟨hline, hcursor, -⟩ := h.input hindex
    obtain rfl := Option.some.inj (hinput.symm.trans hline)
    exact ⟨hsaved, hpos.trans hcursor⟩
  · exact hsaves.other hindex ▸ h.saved hindex

theorem Browsing.up (h : Browsing s text t) : ∃ t', Shell.up t = some t' ∧ Browsing s text t' := by
  obtain ⟨t', hs⟩ := h.sound.exists_up fun hindex => ⟨text, (h.input hindex).1⟩
  refine ⟨t', hs, h.sound.up hs, ?_, ?_⟩
  all_goals
    rcases up_cases hs with ⟨-, rfl⟩ | ⟨u, hsaves, ⟨-, entry, -, hshown⟩ | ⟨-, rfl⟩⟩
  · exact h.input
  · have hge := (hsaves.sound h.sound).index_ge
    have hindex : t'.historyIndex = u.historyIndex + 1 := hshown.historyIndex
    intro hinput
    omega
  · rw [hsaves.historyIndex, hsaves.line, hsaves.pos, hsaves.lineLen]
    exact h.input
  · exact h.saved
  · have hline : t'.savedLine = u.savedLine := hshown.savedLine
    have hpos : t'.savedPos = u.savedPos := hshown.savedPos
    rw [hline, hpos]
    exact fun _ => hsaves.browsing h
  · exact fun _ => hsaves.browsing h

theorem Browsing.down (h : Browsing s text t) :
    ∃ t', Shell.down t = some t' ∧ Browsing s text t' := by
  obtain ⟨t', hs⟩ := h.sound.exists_down
  refine ⟨t', hs, h.sound.down hs, ?_, ?_⟩
  all_goals
    rcases down_cases hs with ⟨-, rfl⟩ | ⟨hpos, entry, -, hshown⟩ | ⟨hindex, -, hrestored⟩
  · exact h.input
  · have hindex : t'.historyIndex = t.historyIndex - 1 := hshown.historyIndex
    intro hinput
    omega
  · obtain ⟨hsaved, hpos⟩ := h.saved hindex
    obtain ⟨text', htext, hline⟩ := hrestored.line
    rw [hsaved] at htext
    obtain rfl := Option.some.inj htext
    exact fun _ => ⟨hline, hrestored.pos.trans hpos, hrestored.lineLen.trans hpos⟩
  · exact h.saved
  · have hline : t'.savedLine = t.savedLine := hshown.savedLine
    have hsaved : t'.savedPos = t.savedPos := hshown.savedPos
    rw [hline, hsaved]
    exact fun _ => h.saved (by omega)
  · exact fun hne => absurd hrestored.historyIndex hne

theorem Browsing.run (h : Browsing s text t) {keys : List UInt8}
    (hkeys : ∀ c ∈ keys, c = keyUp ∨ c = keyDown) :
    ∃ t', keys.foldlM (key execute) t = some t' ∧ Browsing s text t' := by
  induction keys generalizing t with
  | nil => exact ⟨t, rfl, h⟩
  | cons c keys ih =>
      have hstep : ∃ t', key execute t c = some t' ∧ Browsing s text t' := by
        rcases hkeys c List.mem_cons_self with rfl | rfl
        · exact h.up
        · exact h.down
      obtain ⟨t₁, ht₁, h₁⟩ := hstep
      obtain ⟨t', ht', h'⟩ := ih h₁ fun c hc => hkeys c (List.mem_cons_of_mem _ hc)
      exact ⟨t', by rw [List.foldlM_cons, ht₁]; exact ht', h'⟩

/-- Up and then Down. -/
theorem pos_of_restores (hindex : s.historyIndex = -1) (hhistory : s.history ≠ [])
    (h : Restores execute s) : s.pos = s.lineLen ∧ ∃ i < lineSize, s.line i = 0 := by
  obtain ⟨s', hs', hrestores⟩ := h [keyUp, keyDown] (by simp)
  obtain ⟨t, hup, hs'⟩ := Option.bind_eq_some_iff.mp hs'
  obtain ⟨u, hdown, hs'⟩ := Option.bind_eq_some_iff.mp hs'
  obtain rfl := Option.some.inj hs'
  rcases up_cases hup with ⟨hnil, -⟩ | ⟨v, hsaves, ⟨-, entry, -, hshown⟩ | ⟨hge, -⟩⟩
  · exact absurd hnil hhistory
  · obtain ⟨text, htext, -, hsaved⟩ := hsaves.input hindex
    have htop : t.historyIndex = v.historyIndex + 1 := hshown.historyIndex
    have hpos : t.savedPos = v.savedPos := hshown.savedPos
    rw [hsaves.historyIndex, hindex] at htop
    rcases down_cases hdown with ⟨hback, -⟩ | ⟨hpos, -⟩ | ⟨-, -, hrestored⟩
    · omega
    · omega
    · obtain ⟨-, hlen, -⟩ := hrestores hrestored.historyIndex
      rw [hrestored.lineLen, hpos, hsaved] at hlen
      exact ⟨hlen, exists_stringIn_iff.mp ⟨text, htext⟩⟩
  · have hlength := List.length_pos_iff.mpr hhistory
    rw [hsaves.historyIndex, hsaves.history, hindex] at hge
    omega

theorem restores_iff (hs : Kept s) (hindex : s.historyIndex = -1) (hhistory : s.history ≠ []) :
    Restores execute s ↔ s.pos = s.lineLen ∧ ∃ i < lineSize, s.line i = 0 := by
  refine ⟨pos_of_restores hindex hhistory, fun ⟨hpos, hnul⟩ keys hkeys => ?_⟩
  obtain ⟨text, htext⟩ := exists_stringIn_iff.mpr hnul
  have hstart : Browsing s text s :=
    ⟨hs.toSound, fun _ => ⟨htext, rfl, hpos.symm⟩, absurd hindex⟩
  obtain ⟨t, ht, hbrowsing⟩ := hstart.run hkeys
  refine ⟨t, ht, fun hback => ?_⟩
  obtain ⟨hline, hcursor, hlen⟩ := hbrowsing.input hback
  refine ⟨?_, hlen.trans hpos, hcursor⟩
  have hle := le_length_of_stringIn htext hs.content
  rw [Editor.content, Editor.content, hlen, hpos]
  refine List.map_congr_left fun i hi => ?_
  have hi : i < text.bytes.length := Nat.lt_of_lt_of_le (List.mem_range.mp hi) hle
  have hnow := (stringIn_eq_some_iff.mp hline).2.get hi
  have hbefore := (stringIn_eq_some_iff.mp htext).2.get hi
  rw [Nat.zero_add] at hnow hbefore
  rw [hnow, hbefore]

end Browse

/-- The characters that `getchar` returns: those that `keyboard_handler` queues. -/
def Typed (c : UInt8) : Prop := ∃ uses, c ∈ (Input.keyRun uses).queue

/-- After every sequence of keys that the keyboard can send: Up and Down restore the input just
when the cursor is at its end and the buffer of the line has a NUL in it. -/
theorem draft_restored_iff (execute : Buffer → Option Buffer) (stack : Buffer) (keys : List UInt8)
    (hkeys : ∀ c ∈ keys, Typed c) (s : Editor)
    (hs : keys.foldlM (key execute) (start stack) = some s) (hindex : s.historyIndex = -1)
    (hhistory : s.history ≠ []) :
    Restores execute s ↔ s.pos = s.lineLen ∧ ∃ i < lineSize, s.line i = 0 := by
  have hne : ∀ c ∈ keys, c ≠ 0 := by
    intro c hc
    obtain ⟨uses, huses⟩ := hkeys c hc
    exact Input.ne_zero_of_mem_queue huses
  exact restores_iff ((kept_start stack).run hne hs) hindex hhistory

/-- The keys `l` and Enter. -/
theorem draft_restored_l : ∃ s, [108, 10].foldlM (key some) (start fun _ => 0) = some s ∧
    (Restores some s ↔ s.pos = s.lineLen ∧ ∃ i < lineSize, s.line i = 0) := by
  have hkeys : ∀ c ∈ [108, 10], Typed c := by
    intro c hc
    rcases List.mem_pair.mp hc with rfl | rfl
    · exact ⟨[.key (.press 0x26)], by decide⟩
    · exact ⟨[.key (.press 0x1C)], by decide⟩
  exact ⟨_, rfl, draft_restored_iff some (fun _ => 0) [108, 10] hkeys _ rfl rfl
    (List.cons_ne_nil _ _)⟩

/-- The keys `l`, Enter, `a`, `b` and Left: Up and Down leave `a`. -/
theorem draft_loses_b : ∃ s,
    [108, 10, 97, 98, keyLeft].foldlM (key some) (start fun _ => 0) = some s ∧
      s.historyIndex = -1 ∧ s.history ≠ [] ∧ ¬ Restores some s := by
  refine ⟨_, rfl, rfl, (List.cons_ne_nil _ _), fun h => ?_⟩
  have hpos := (pos_of_restores rfl (List.cons_ne_nil _ _) h).1
  exact absurd hpos (by decide)

end SRos.Shell
