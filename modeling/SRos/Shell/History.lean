import SRos.Lib.Recent
import SRos.Shell.Keys

/-!
# The rows of the history (`src/user/shell.c`)

`history_add` on its sixteen rows. They hold the recent commands, without empty ones and without
repetitions: the list that the editor works on.
-/

namespace SRos.Shell

open Recent

/-- `history` and `history_count`. -/
structure History where
  rows : Nat → Buffer
  count : Nat

/-- `strcpy(history[i - 1], history[i])`. -/
def History.shift (h : History) (i : Nat) : Option History := do
  let src ← stringIn (h.rows i)
  let row ← strcpy (h.rows (i - 1)) src
  return { h with rows := Function.update h.rows (i - 1) row }

/-- The loop that drops the oldest row if there is no room. -/
def History.makeRoom (h : History) : Option History :=
  if h.count ≥ historyMax then do
    let h ← (List.range' 1 (historyMax - 1)).foldlM History.shift h
    return { h with count := historyMax - 1 }
  else some h

/-- The test for a command that repeats the last row. -/
def History.repeats (h : History) (cmd : CStr) : Option Bool :=
  if h.count > 0 then do
    let last ← stringIn (h.rows (h.count - 1))
    return SRos.strcmp last.bytes cmd.bytes = 0
  else some false

def History.historyAdd (h : History) (cmd : CStr) : Option History :=
  if cmd.bytes.length = 0 then some h
  else do
    let repeats ← h.repeats cmd
    if repeats then return h
    else
      let h ← h.makeRoom
      let row ← strcpy (h.rows h.count) cmd
      return { rows := Function.update h.rows h.count row, count := h.count + 1 }

/-- The static variables at the start. -/
def History.initial : History := { rows := fun _ _ => 0, count := 0 }

/-! ## The rows and the list -/

/-- The rows hold a list of commands. -/
structure History.Stores (h : History) (l : List CStr) : Prop where
  count : h.count = l.length
  room : l.length ≤ historyMax
  rows : ∀ i, (hi : i < l.length) → stringIn (h.rows i) = some l[i]

section Steps

variable {h : History} {l : List CStr} {cmd : CStr}

theorem stores_initial : History.initial.Stores [] := ⟨rfl, Nat.zero_le _, nofun⟩

/-- The rows during the shift: the first `k` have been moved. -/
theorem History.Stores.shift (hs : h.Stores l) {k : Nat} (hk : k < l.length) :
    ∃ h', (List.range' 1 k).foldlM History.shift h = some h' ∧
      ∀ i, (hi : i < l.length) →
        stringIn (h'.rows i) = some (if hlt : i < k then l[i + 1] else l[i]) := by
  induction k with
  | zero => exact ⟨h, rfl, hs.rows⟩
  | succ k ih =>
      obtain ⟨h₁, hrun, hrows⟩ := ih (Nat.lt_of_succ_lt hk)
      have hsrc := hrows (k + 1) hk
      rw [dif_neg (Nat.not_lt.mpr (Nat.le_succ k))] at hsrc
      obtain ⟨row, hrow, hstring⟩ := exists_strcpy (h₁.rows k) (stringIn_eq_some_iff.mp hsrc).1
      refine ⟨{ h₁ with rows := Function.update h₁.rows k row }, ?_, fun i hi => ?_⟩
      · have hstep : h₁.shift (k + 1) = some { h₁ with rows := Function.update h₁.rows k row } := by
          simp [History.shift, hsrc, hrow]
        rw [List.range'_1_concat, List.foldlM_append, hrun, Nat.add_comm 1]
        simp [hstep]
      · by_cases hik : i = k
        · subst hik
          simpa using hstring
        · have hrest := hrows i hi
          have hlt : i < k + 1 ↔ i < k := by omega
          simpa [Function.update_of_ne hik, hlt] using hrest

/-- The rows with room for one more. -/
theorem History.Stores.makeRoom (hs : h.Stores l) :
    ∃ h', h.makeRoom = some h' ∧ h'.Stores (if l.length ≥ historyMax then l.tail else l) := by
  have hcount := hs.count
  have hmax := hs.room
  unfold History.makeRoom
  by_cases hfull : l.length ≥ historyMax
  · have hlen : l.length = historyMax := Nat.le_antisymm hmax hfull
    obtain ⟨h', hrun, hrows⟩ := hs.shift (k := historyMax - 1) (by rw [hlen]; decide)
    refine ⟨{ h' with count := historyMax - 1 }, ?_, ?_⟩
    · simp [hcount, hfull, hrun]
    · rw [if_pos hfull]
      refine ⟨by simp [hlen], by simp [hlen], fun i hi => ?_⟩
      rw [List.length_tail] at hi
      have hrow := hrows i (by omega)
      rw [dif_pos (by omega)] at hrow
      simpa using hrow
  · exact ⟨h, by simp [hcount, hfull], by rwa [if_neg hfull]⟩

theorem History.Stores.push (hs : h.Stores l) (hroom : l.length < historyMax) {row : Buffer}
    (hrow : stringIn row = some cmd) :
    History.Stores { rows := Function.update h.rows h.count row, count := h.count + 1 }
      (l ++ [cmd]) := by
  have hcount := hs.count
  refine ⟨by simp [hcount], by simpa using Nat.succ_le_of_lt hroom, fun i hi => ?_⟩
  rw [List.length_append, List.length_singleton] at hi
  by_cases hlast : i = l.length
  · subst hlast
    simpa [hcount] using hrow
  · have hlt : i < l.length := by omega
    have hkept := hs.rows i hlt
    simpa [hcount, Function.update_of_ne hlast, hlt] using hkept

theorem History.Stores.repeats (hs : h.Stores l) :
    h.repeats cmd = some (decide (l.getLast? = some cmd)) := by
  have hcount := hs.count
  rcases List.eq_nil_or_concat l with rfl | ⟨front, last, rfl⟩
  · simp [History.repeats, hcount]
  · have hrow := hs.rows front.length (by simp)
    have heq : last.bytes = cmd.bytes ↔ last = cmd :=
      ⟨fun h => by cases last; cases cmd; cases h; rfl, congrArg CStr.bytes⟩
    simp [History.repeats, hcount, hrow, strcmp_eq_zero_iff, heq]

/-- `history_add` on the rows is `history_add` on the list. -/
theorem History.Stores.historyAdd (hs : h.Stores l) (hlen : cmd.bytes.length < lineSize) :
    ∃ h', h.historyAdd cmd = some h' ∧ h'.Stores (Shell.historyAdd l cmd) := by
  have hmax := hs.room
  have hpos : 0 < historyMax := Nat.zero_lt_succ _
  unfold History.historyAdd Shell.historyAdd
  rw [hs.repeats]
  by_cases hempty : cmd.bytes.length = 0
  · exact ⟨h, if_pos hempty, by rwa [if_pos hempty]⟩
  rw [if_neg hempty, if_neg hempty]
  by_cases hdup : l.getLast? = some cmd
  · exact ⟨h, by simp [hdup], by rwa [if_pos hdup]⟩
  · obtain ⟨h', hrun, hs'⟩ := hs.makeRoom
    obtain ⟨row, hcopy, hrow⟩ := exists_strcpy (h'.rows h'.count) hlen
    have hroom : (if l.length ≥ historyMax then l.tail else l).length < historyMax := by
      split
      · rw [List.length_tail]
        omega
      · omega
    refine ⟨{ rows := Function.update h'.rows h'.count row, count := h'.count + 1 },
      by simp [hdup, hrun, hcopy], ?_⟩
    rw [if_neg hdup, ← apply_ite (· ++ [cmd])]
    exact hs'.push hroom hrow

/-- The list for a command behind others. -/
theorem historyAdd_recent (cmds : List CStr) (cmd : CStr) :
    Shell.historyAdd (recent historyMax (cmds.filter fun c => c.bytes ≠ [])) cmd =
      recent historyMax ((cmds ++ [cmd]).filter fun c => c.bytes ≠ []) := by
  have hlen := length_recent_le 16 (cmds.filter fun c => decide (c.bytes ≠ []))
  rw [List.filter_append, Shell.historyAdd]
  by_cases hempty : cmd.bytes.length = 0
  · have hnil : cmd.bytes = [] := List.length_eq_zero_iff.mp hempty
    simp [hnil]
  · have hne : cmd.bytes ≠ [] := fun h => hempty (List.length_eq_zero_iff.mpr h)
    rw [if_neg hempty, List.filter_cons_of_pos (by simp [hne]), List.filter_nil, historyMax,
      recent_concat, rtake_succ_concat cmd hlen]

/-- A run of `history_add`. -/
theorem exists_foldlM_historyAdd {cmds : List CStr}
    (hlen : ∀ cmd ∈ cmds, cmd.bytes.length < lineSize) :
    ∃ h, cmds.foldlM History.historyAdd History.initial = some h ∧
      h.Stores (recent historyMax (cmds.filter fun c => c.bytes ≠ [])) := by
  induction cmds using List.reverseRecOn with
  | nil => exact ⟨_, rfl, stores_initial⟩
  | append_singleton cmds cmd ih =>
      obtain ⟨h, hrun, hs⟩ := ih fun c hc => hlen c (List.mem_append_left _ hc)
      obtain ⟨h', hstep, hs'⟩ := hs.historyAdd (hlen cmd (by simp))
      refine ⟨h', ?_, historyAdd_recent cmds cmd ▸ hs'⟩
      rw [List.foldlM_append, hrun]
      simp [hstep]

end Steps

/-- After every sequence of commands the rows are the last sixteen entries of the list without the
empty commands and without those equal to the last one that is kept. -/
theorem history_recent (cmds : List CStr) (hlen : ∀ cmd ∈ cmds, cmd.bytes.length ≤ 255) :
    ∃ h, cmds.foldlM History.historyAdd History.initial = some h ∧
      h.count ≤ 16 ∧
      (List.range h.count).map (fun i => stringIn (h.rows i)) =
        (((cmds.filter fun c => c.bytes ≠ []).destutter (· ≠ ·)).rtake 16).map some := by
  obtain ⟨h, hrun, hs⟩ := exists_foldlM_historyAdd fun cmd hcmd => Nat.lt_succ_of_le (hlen cmd hcmd)
  refine ⟨h, hrun, hs.count ▸ hs.room, List.ext_getElem ?_ fun i hi hi' => ?_⟩
  · rw [List.length_map, List.length_map, List.length_range, hs.count]
    rfl
  · rw [List.length_map, List.length_range, hs.count] at hi
    rw [List.getElem_map, List.getElem_range, hs.rows i hi, List.getElem_map]
    rfl

/-- The commands `ls`, nothing, `ls` and `help`. -/
theorem history_recent_ls : let ls : CStr := ⟨[108, 115], by decide⟩
    let help : CStr := ⟨[104, 101, 108, 112], by decide⟩
    ∃ h, [ls, CStr.empty, ls, help].foldlM History.historyAdd History.initial = some h ∧
      h.count ≤ 16 ∧
      (List.range h.count).map (fun i => stringIn (h.rows i)) = [some ls, some help] := by
  intro ls help
  have hlast : (([ls, CStr.empty, ls, help].filter fun c => c.bytes ≠ []).destutter
      (· ≠ ·)).rtake 16 = [ls, help] := by decide
  have hrun := history_recent [ls, CStr.empty, ls, help] (by decide)
  rwa [hlast] at hrun

end SRos.Shell
