import SRos.Fs.Model
import SRos.Shell.Draft
import SRos.Shell.Writes

/-!
# Where the shell stores (`src/user/shell.c`)

The line, the rows of the history and the arguments are never overrun. Two arrays are, on certain
keys: `saved_line`, when Up copies a line without a NUL, and `path`, which has 64 bytes for a word
of up to 254.
-/

namespace SRos.Shell.Writes

open Fields Strings Traced

/-! ## What `fs_read` returns -/

theorem readLoop_le (d : Fs.Disk) (inode : Fs.Inode) (size offset fuel bytesRead : Nat)
    (block buf : Fs.Buf) (h : bytesRead ≤ size) :
    (Fs.readLoop d inode size offset fuel bytesRead block buf).1 ≤ size := by
  induction fuel generalizing bytesRead block buf with
  | zero => exact h
  | succ fuel ih =>
      rw [Fs.readLoop]
      split
      · exact h
      dsimp only
      split
      · exact h
      · exact ih _ _ _ (by omega)

theorem sfsReadFile_le (d : Fs.Disk) (inode : Fs.Inode) (buf : Fs.Buf) (size offset : Nat) :
    (Fs.sfsReadFile d inode buf size offset).1 ≤ size := by
  unfold Fs.sfsReadFile
  split
  · exact Nat.zero_le _
  dsimp only
  split
  · have hwrap : u32 (offset + size) ≤ offset + size := Nat.mod_le ..
    exact (readLoop_le _ _ _ _ _ _ _ _ (Nat.zero_le _)).trans (by omega)
  · exact readLoop_le _ _ _ _ _ _ _ _ (Nat.zero_le _)

/-- `fs_read` of 255 bytes returns a value of an `Outcome`, or one that ends the loop. -/
theorem sysRead_le (s : Fs.FsState) (fd : Int) (buf : Fs.Buf) :
    (Fs.sysRead s fd buf 255).2.2 ≤ 255 := by
  unfold Fs.sysRead
  split
  · exact (Int.negSucc_le_zero 0).trans (by decide)
  split
  · exact (Int.negSucc_le_zero 0).trans (by decide)
  · next file _ _ inode _ =>
      have hle := sfsReadFile_le s.disk inode buf (u32OfInt 255) file.offset
      have hcount : u32OfInt 255 = 255 := rfl
      rw [hcount] at hle
      dsimp only
      rw [hcount, int32_of_lt (by omega)]
      omega

/-! ## Computations that stay inside -/

section Gives

variable {α β : Type} {m : OptionT (Traced Write) α} {f : α → OptionT (Traced Write) β}
  {o : Option α} {g : α → Option β} {a : α}

/-- Every store is inside of its array, and this is the result. -/
structure Gives (m : OptionT (Traced Write) α) (o : Option α) : Prop where
  inside : m.run.Within Write.Inside
  value : m.run.value = o

theorem Gives.pure : Gives (pure a) (some a) := ⟨within_pure _, rfl⟩

theorem Gives.attempt : Gives (attempt o) o := ⟨fun _ hw => absurd hw List.not_mem_nil, rfl⟩

theorem Gives.bind (h : Gives m o) (hf : ∀ a, o = some a → Gives (f a) (g a)) :
    Gives (m >>= f) (o.bind g) := by
  obtain ⟨hinside, rfl⟩ := h
  refine ⟨.run_bind hinside fun a ha => (hf a ha).inside, ?_⟩
  rw [value_run_bind]
  cases ha : m.run.value with
  | none => rfl
  | some a => exact (hf a ha).value

/-- A step that has a result. -/
theorem Gives.then (h : Gives m (some a)) {o : Option β} (hf : Gives (f a) o) :
    Gives (m >>= f) o :=
  h.bind (g := fun _ => o) fun _ ha => Option.some.inj ha ▸ hf

theorem Gives.mem_then (h : Gives m (some a)) {w : Write} (hw : w ∈ (f a).run.trace) :
    w ∈ (m >>= f).run.trace :=
  mem_trace_run_bind.mpr (.inr ⟨a, h.value, hw⟩)

theorem Gives.foldlM {xs : List β} {g : α → β → OptionT (Traced Write) α} {g' : α → β → α}
    (h : ∀ a, ∀ x ∈ xs, Gives (g a x) (some (g' a x))) (a : α) :
    Gives (xs.foldlM g a) (some (xs.foldl g' a)) := by
  induction xs generalizing a with
  | nil => exact .pure
  | cons x xs ih =>
      rw [List.foldlM_cons]
      exact (h a x List.mem_cons_self).then (ih (fun a y hy => h a y (List.mem_cons_of_mem x hy)) _)

end Gives

/-! ## Copying strings -/

section Copies

variable {t : Target} {b dest src : Buffer} {c : UInt8} {i offset fuel n : Nat} {str : List UInt8}
  {s : CStr}

theorem Gives.store (h : i < t.size) : Gives (store t i) (some ()) :=
  ⟨fun _ hw => List.mem_singleton.mp hw ▸ h, if_pos h⟩

theorem Gives.assign (h : i < t.size) : Gives (assign t b i c) (some (Function.update b i c)) :=
  (Gives.store h).then .pure

/-- A copied string in its array. -/
def copied (dest src : Buffer) (offset i n : Nat) : Buffer :=
  fun j => if offset + i ≤ j ∧ j ≤ offset + i + n then src (j - offset) else dest j

theorem copied_zero : copied dest src offset i 0 = Function.update dest (offset + i) (src i) := by
  funext j
  by_cases hj : j = offset + i
  · subst hj
    simp [copied]
  · rw [copied, if_neg (by omega), Function.update_of_ne hj]

theorem copied_succ : copied (Function.update dest (offset + i) (src i)) src offset (i + 1) n =
    copied dest src offset i (n + 1) := by
  funext j
  by_cases hj : j = offset + i
  · subst hj
    simp [copied]
  · rw [copied, copied, Function.update_of_ne hj]
    by_cases hin : offset + (i + 1) ≤ j ∧ j ≤ offset + (i + 1) + n
    · rw [if_pos hin, if_pos (by omega)]
    · rw [if_neg hin, if_neg (by omega)]

/-- A string that fits. -/
theorem gives_strcpyLoop (h : Holds src i str) (hnul : (0 : UInt8) ∉ str) (hfuel : str.length < fuel)
    (hfit : offset + i + str.length < t.size) :
    Gives (strcpyLoop t offset src fuel i dest) (some (copied dest src offset i str.length)) := by
  induction str generalizing fuel i dest with
  | nil =>
      obtain ⟨fuel, rfl⟩ := Nat.exists_eq_succ_of_ne_zero (Nat.ne_zero_of_lt hfuel)
      have hend : src i = 0 := h
      rw [List.length_nil, copied_zero]
      refine (Gives.assign hfit).then ?_
      rw [if_pos hend]
      exact .pure
  | cons c str ih =>
      obtain ⟨fuel, rfl⟩ := Nat.exists_eq_succ_of_ne_zero (Nat.ne_zero_of_lt hfuel)
      have hne : src i ≠ 0 := h.1 ▸ ne_zero_of_notMem hnul
      rw [List.length_cons] at hfuel hfit ⊢
      refine (Gives.assign (by omega)).then ?_
      rw [if_neg hne, ← copied_succ]
      exact ih h.2 (fun hmem => hnul (List.mem_cons_of_mem c hmem)) (by omega) (by omega)

/-- A string that does not fit. -/
theorem strcpyLoop_outside (h : ∀ j, i ≤ j → offset + j < t.size → src j ≠ 0)
    (hfuel : t.size < offset + i + fuel) (hi : offset + i ≤ t.size) :
    (strcpyLoop t offset src fuel i dest).run.value = none ∧
      ⟨t, t.size⟩ ∈ (strcpyLoop t offset src fuel i dest).run.trace := by
  induction fuel generalizing i dest with
  | zero => omega
  | succ fuel ih =>
      by_cases hlt : offset + i < t.size
      · have hstep := (Gives.assign hlt : Gives (assign t dest (offset + i) (src i)) _).value
        obtain ⟨hvalue, htrace⟩ := @ih (Function.update dest (offset + i) (src i)) (i + 1)
          (fun j hj => h j (by omega)) (by omega) (by omega)
        rw [strcpyLoop, value_run_bind, mem_trace_run_bind, hstep, Option.bind_some,
          if_neg (h i (le_refl i) hlt)]
        exact ⟨hvalue, .inr ⟨_, rfl, by rwa [if_neg (h i (le_refl i) hlt)]⟩⟩
      · have heq : offset + i = t.size := by omega
        have hstep : (assign t dest (offset + i) (src i)).run.value = none := by
          rw [assign, value_run_bind, store, value_step, if_neg hlt]
          rfl
        rw [strcpyLoop, value_run_bind, mem_trace_run_bind, hstep]
        refine ⟨rfl, .inl ?_⟩
        rw [assign, mem_trace_run_bind, store, trace_step, heq]
        exact .inl List.mem_cons_self

theorem gives_strcpy (hs : stringIn src = some s) (ht : t.size = lineSize) :
    Gives (strcpy t 0 dest src) (Shell.strcpy dest s) := by
  obtain ⟨hlen, hholds⟩ := stringIn_eq_some_iff.mp hs
  have hcopied : Shell.strcpy dest s = some (copied dest src 0 0 s.bytes.length) := by
    rw [Shell.strcpy, if_pos hlen]
    congr 1
    funext j
    have hnul := nul_of_stringIn hs
    by_cases hj : j < s.bytes.length
    · have hget := hholds.get hj
      rw [Nat.zero_add] at hget
      simp [copied, hj, hj.le, hget]
    · by_cases heq : j = s.bytes.length
      · simp [copied, heq, hnul]
      · simp [copied, hj, heq]
        omega
  rw [hcopied]
  exact gives_strcpyLoop hholds s.noNul (by omega) (by omega)

theorem stringIn_text (h : s.bytes.length < lineSize) : stringIn (text s) = some s :=
  stringIn_eq_some_iff.mpr ⟨h, .of_get (fun i hi => by simp [text, hi]) (by simp [text])⟩

end Copies

/-! ## The history -/

section History

variable {history : List CStr} {cmd src : CStr} {row : Nat}

theorem size_history (h : row < historyMax) : (Target.history row).size = lineSize := if_pos h

theorem gives_storeRow (hrow : row < historyMax) (hlen : src.bytes.length < lineSize) :
    Gives (storeRow row src) (some ()) := by
  have hcopy : Gives (strcpy (.history row) 0 (fun _ => 0) (text src))
      (Shell.strcpy (fun _ => 0) src) := gives_strcpy (stringIn_text hlen) (size_history hrow)
  rw [Shell.strcpy, if_pos hlen] at hcopy
  exact hcopy.then .pure

theorem gives_shiftRows (hentries : ∀ entry ∈ history, entry.bytes.length < lineSize)
    (hfull : history.length = historyMax) : Gives (shiftRows history) (some ()) := by
  have hround : ∀ (u : Unit), ∀ i ∈ List.range' 1 (historyMax - 1), Gives (do
      let src ← attempt history[i]?
      storeRow (i - 1) src) (some u) := by
    intro u i hi
    have hlt : i < history.length := by
      rw [List.mem_range'_1] at hi
      omega
    rw [List.getElem?_eq_getElem hlt]
    exact Gives.attempt.then (gives_storeRow (by omega) (hentries _ (List.getElem_mem hlt)))
  exact .foldlM hround ()

theorem gives_historyAdd (hentries : ∀ entry ∈ history, entry.bytes.length < lineSize)
    (hroom : history.length ≤ historyMax) (hcmd : cmd.bytes.length < lineSize) :
    Gives (historyAdd history cmd) (some (Shell.historyAdd history cmd)) := by
  have hpos : 0 < historyMax := Nat.zero_lt_succ _
  unfold historyAdd Shell.historyAdd
  split
  · exact .pure
  split
  · exact .pure
  split
  · next hfull =>
      exact (gives_shiftRows hentries (Nat.le_antisymm hroom hfull)).then
        ((gives_storeRow (by omega) hcmd).then .pure)
  · exact (gives_storeRow (by omega) hcmd).then .pure

end History

/-! ## The arguments -/

section Parsing

variable {line : Buffer} {test : UInt8 → Bool} {fuel p q e maxArgs : Nat} {s : Parse}

/-- A scan does not pass a NUL. -/
theorem scan_le (hstop : test 0 = false) (he : line e = 0) (hp : p ≤ e)
    (h : scan test line fuel p = some q) : p ≤ q ∧ q ≤ e := by
  induction fuel generalizing p with
  | zero => cases h
  | succ fuel ih =>
      rw [scan] at h
      split at h
      · next htest =>
          have hne : p ≠ e := by
            intro hpe
            rw [hpe, he, hstop] at htest
            cases htest
          have hrest := ih (by omega) h
          omega
      · obtain rfl := Option.some.inj h
        exact ⟨le_refl p, hp⟩

/-- The arguments fit in `argv`, and a NUL is only stored in front of the one at the end. -/
theorem gives_parseLoop (hargs : maxArgs ≤ 16) (he : s.line e = 0) (hp : p ≤ e) (hlt : e < lineSize) :
    Gives (parseLoop maxArgs fuel p s) (Shell.parseLoop maxArgs fuel p s) := by
  induction fuel generalizing p s with
  | zero => exact .attempt
  | succ fuel ih =>
      unfold parseLoop Shell.parseLoop
      split
      · exact .pure
      refine Gives.attempt.bind fun p₁ hp₁ => ?_
      have hle₁ := (scan_le rfl he hp hp₁).2
      split
      · exact .pure
      split
      · exact .pure
      next hroom =>
        have hargv : s.argv.length < Target.argv.size := Nat.lt_of_lt_of_le (by omega) hargs
        refine (Gives.store hargv).then (Gives.attempt.bind fun p₂ hp₂ => ?_)
        have hle₂ := (@scan_le s.line isWord (fuel + 1) p₁ p₂ e rfl he hle₁ hp₂).2
        split
        · next hne =>
            have hne' : p₂ ≠ e := fun heq => hne (heq ▸ he)
            have hstore : p₂ < Target.line.size := Nat.lt_of_le_of_lt hle₂ hlt
            have hend : ((s.arg p₁).cut p₂).line e = 0 :=
              (Function.update_of_ne (Ne.symm hne') ..).trans he
            exact (Gives.store hstore).then (ih hend (by omega))
        · exact ih he hle₂

end Parsing

/-! ## The commands -/

/-- The word that goes in the path, with what is in front of it. -/
def pathWord : List (List UInt8) → Option (List UInt8)
  | name :: word :: rest =>
      if name = catName ∨ name = execName ∨ (name = writeName ∧ rest ≠ []) then some word else none
  | _ => none

/-- The path of a command has room in its array. -/
def PathFits (line : List UInt8) : Prop :=
  ∀ word ∈ pathWord (commandWords line), word.length ≤ 62

section Commands

variable {s : Parse} {o : Outcome} {word : List UInt8} {line : Buffer} {cmd : CStr}

theorem gives_buildPath (h : Holds (arg s 1) 0 word) (hnul : (0 : UInt8) ∉ word)
    (hlen : word.length ≤ 62) : Gives (buildPath s) (some ()) := by
  have hlt : word.length < Target.path.size + 1 := by change _ < 65; omega
  have hfit : 1 + 0 + word.length < Target.path.size := by change _ < 64; omega
  refine (Gives.assign (by decide)).then ((Gives.assign (by decide)).then ?_)
  exact (gives_strcpyLoop h hnul hlt hfit).then .pure

theorem buildPath_outside (h : Holds (arg s 1) 0 word) (hnul : (0 : UInt8) ∉ word)
    (hlen : 62 < word.length) : ⟨.path, 64⟩ ∈ (buildPath s).run.trace := by
  have hne : ∀ j, 0 ≤ j → 1 + j < Target.path.size → arg s 1 j ≠ 0 := by
    intro j _ hj hzero
    change 1 + j < 64 at hj
    have hget := h.get (i := j) (by omega)
    rw [Nat.zero_add, hzero] at hget
    exact hnul (hget ▸ List.getElem_mem _)
  refine (Gives.assign (by decide)).mem_then ((Gives.assign (by decide)).mem_then ?_)
  exact mem_trace_run_bind.mpr (.inl (strcpyLoop_outside hne (by decide) (by decide)).2)

/-- The arguments of a line with these words. -/
structure Parsed (s : Parse) (words : List (List UInt8)) : Prop where
  args : List.Forall₂ (Holds s.line) s.argv (words.take 16)
  noNul : ∀ w ∈ words, (0 : UInt8) ∉ w
  length : ∀ w ∈ words, w.length < lineSize

theorem exists_parsed (h : stringIn line = some cmd) :
    ∃ s, Gives (parseCommand line 16) (some s) ∧ Parsed s (commandWords cmd.bytes) := by
  obtain ⟨hlen, hholds⟩ := stringIn_eq_some_iff.mp h
  have hnul := nul_of_stringIn h
  obtain ⟨ps, qs, s, hrun, hsplits⟩ :=
    @parseLoop_splits cmd.bytes 0 (lineSize + 1) 16 { line, argv := [], stores := [] } cmd.noNul
      hholds (by omega)
  have hargv : s.argv = ps := hsplits.argv
  refine ⟨s, ?_, hargv ▸ hsplits.args, fun w hw hmem => ?_, fun w hw => ?_⟩
  · rw [← hrun]
    exact gives_parseLoop (le_refl _) hnul (Nat.zero_le _) hlen
  · exact cmd.noNul ((sublist_of_mem_words hw).mem hmem)
  · exact Nat.lt_of_le_of_lt (sublist_of_mem_words hw).length_le hlen

theorem Parsed.arg {words : List (List UInt8)} (h : Parsed s words) {i : Nat} (hi : i < 16)
    (hword : words[i]? = some word) : i < s.argv.length ∧ Holds (arg s i) 0 word := by
  have hlen := h.args.length_eq
  obtain ⟨hlt, hget⟩ := List.getElem?_eq_some_iff.mp hword
  rw [List.length_take] at hlen
  have hargv : i < s.argv.length := by omega
  refine ⟨hargv, ?_⟩
  have hholds := List.Forall₂.get h.args hargv (by rw [List.length_take]; omega)
  rw [List.get_eq_getElem, List.get_eq_getElem, List.getElem_take, hget] at hholds
  rw [← List.getD_eq_getElem s.argv 0 hargv] at hholds
  exact hholds.shift

theorem Parsed.argc {words : List (List UInt8)} (h : Parsed s words) :
    s.argv.length = min words.length 16 := by
  rw [h.args.length_eq, List.length_take, Nat.min_comm]

/-- What `cmd_cat` stores behind the path. -/
theorem within_reads (o : Outcome) :
    (if o.found then o.reads.foldlM (fun _ (n : Fin 256) => store .buf n) () else pure () :
      OptionT (Traced Write) Unit).run.Within Write.Inside := by
  split
  · have hround : ∀ (u : Unit), ∀ n ∈ o.reads, Gives (store .buf n) (some u) :=
      fun _ n _ => Gives.store n.isLt
    exact (Gives.foldlM hround ()).inside
  · exact within_pure _

theorem within_runCommand {name : List UInt8} {rest : List (List UInt8)}
    (h : Parsed s (name :: rest)) (hfit : ∀ word ∈ pathWord (name :: rest), word.length ≤ 62) :
    (runCommand o s name).run.Within Write.Inside := by
  have hargc := h.argc
  rw [List.length_cons] at hargc
  have hpath : ∀ word rest', rest = word :: rest' → pathWord (name :: rest) = some word →
      Gives (buildPath s) (some ()) := by
    rintro word rest' rfl hword
    have harg := (h.arg (i := 1) (by decide) rfl).2
    exact gives_buildPath harg (h.noNul word (by simp)) (hfit word hword)
  unfold runCommand
  split
  · next hcat =>
      rw [strcmp_eq_zero_iff] at hcat
      unfold cmdCat
      split
      · exact within_pure _
      · cases rest with
        | nil => rw [List.length_nil] at hargc; omega
        | cons word rest =>
            refine .run_bind (hpath word rest rfl (if_pos (.inl hcat))).inside fun _ _ => ?_
            exact within_reads o
  split
  · next hwrite =>
      rw [strcmp_eq_zero_iff] at hwrite
      unfold cmdWrite
      split
      · exact within_pure _
      · match rest, hargc, hpath with
        | [], hargc, _ => rw [List.length_nil] at hargc; omega
        | [_], hargc, _ => rw [List.length_singleton] at hargc; omega
        | word :: text :: rest, _, hpath =>
            exact (hpath word _ rfl (if_pos (.inr (.inr ⟨hwrite, List.cons_ne_nil _ _⟩)))).inside
  split
  · next hexec =>
      rw [strcmp_eq_zero_iff] at hexec
      unfold cmdExec
      split
      · exact within_pure _
      · cases rest with
        | nil => rw [List.length_nil] at hargc; omega
        | cons word rest =>
            refine .run_bind (hpath word rest rfl (if_pos (.inr (.inl hexec)))).inside fun _ _ => ?_
            exact Gives.attempt.inside
  · exact Gives.attempt.inside

theorem runCommand_outside {name : List UInt8} {rest : List (List UInt8)}
    (h : Parsed s (name :: rest)) (hword : pathWord (name :: rest) = some word)
    (hlen : 62 < word.length) : ⟨.path, 64⟩ ∈ (runCommand o s name).run.trace := by
  have hargc := h.argc
  cases rest with
  | nil => cases hword
  | cons first rest =>
      rw [List.length_cons, List.length_cons] at hargc
      rw [pathWord] at hword
      split at hword
      · next hname =>
          obtain rfl := Option.some.inj hword
          have harg := (h.arg (i := 1) (by decide) rfl).2
          have hout := buildPath_outside harg (h.noNul first (by simp)) hlen
          rcases hname with rfl | rfl | ⟨rfl, hrest⟩
          · rw [runCommand, if_pos (by decide), cmdCat, if_neg (by omega)]
            exact mem_trace_run_bind.mpr (.inl hout)
          · rw [runCommand, if_neg (by decide), if_neg (by decide), if_pos (by decide), cmdExec,
              if_neg (by omega)]
            exact mem_trace_run_bind.mpr (.inl hout)
          · have hlength := List.length_pos_iff.mpr hrest
            rw [runCommand, if_neg (by decide), if_pos (by decide), cmdWrite, if_neg (by omega)]
            exact hout
      · cases hword

theorem Parsed.name {name : List UInt8} {rest : List (List UInt8)}
    (h : Parsed s (name :: rest)) :
    s.argv.length ≠ 0 ∧ ∃ str, stringIn (Writes.arg s 0) = some str ∧ str.bytes = name := by
  obtain ⟨hargv, hholds⟩ := h.arg (i := 0) (by decide) rfl
  have hlen := h.length name List.mem_cons_self
  exact ⟨Nat.ne_zero_of_lt hargv, ⟨name, h.noNul name List.mem_cons_self⟩,
    stringIn_eq_some_iff.mpr ⟨hlen, hholds⟩, rfl⟩

theorem within_execute (h : stringIn line = some cmd) (hfit : PathFits cmd.bytes) :
    (execute o line).run.Within Write.Inside := by
  obtain ⟨s, hparse, hparsed⟩ := exists_parsed h
  refine .run_bind hparse.inside fun s' hs' => ?_
  obtain rfl := Option.some.inj (hparse.value.symm.trans hs')
  split
  · exact within_pure _
  · next hargc =>
      cases hwords : commandWords cmd.bytes with
      | nil =>
          have hzero := hparsed.argc
          rw [hwords, List.length_nil, Nat.zero_min] at hzero
          exact absurd hzero hargc
      | cons name rest =>
          rw [PathFits, hwords] at hfit
          rw [hwords] at hparsed
          obtain ⟨-, str, hstr, rfl⟩ := hparsed.name
          refine .run_bind Gives.attempt.inside fun str' hstr' => ?_
          obtain rfl := Option.some.inj (hstr.symm.trans hstr')
          exact .run_bind (within_runCommand hparsed hfit) fun _ _ => within_pure _

theorem execute_outside (h : stringIn line = some cmd) (hfit : ¬ PathFits cmd.bytes) :
    ⟨.path, 64⟩ ∈ (execute o line).run.trace := by
  obtain ⟨s, hparse, hparsed⟩ := exists_parsed h
  obtain ⟨word, hword, hlen⟩ : ∃ word, pathWord (commandWords cmd.bytes) = some word ∧
      62 < word.length := by
    by_contra hnone
    refine hfit fun word hword => ?_
    by_contra hlt
    exact hnone ⟨word, hword, Nat.lt_of_not_le hlt⟩
  refine hparse.mem_then ?_
  cases hwords : commandWords cmd.bytes with
  | nil =>
      rw [hwords] at hword
      cases hword
  | cons name rest =>
      rw [hwords] at hword hparsed
      obtain ⟨hargc, str, hstr, rfl⟩ := hparsed.name
      rw [if_neg hargc, hstr]
      refine Gives.attempt.mem_then (mem_trace_run_bind.mpr (.inl ?_))
      exact runCommand_outside hparsed hword hlen

end Commands

/-! ## The keys -/

/-- The keys that keep every store inside. Up needs a NUL in the buffer of the line if it saves the
input, and Enter needs a path that fits. -/
structure Admitted (s : Editor) (c : UInt8) : Prop where
  up : c = keyUp → s.history ≠ [] → s.historyIndex = -1 → ∃ i < lineSize, s.line i = 0
  enter : c = 10 → ∀ cmd ∈ entered s, PathFits cmd.bytes

section Keys

variable {o : Outcome} {s : Editor} {entry : CStr} {c : UInt8}

theorem gives_showEntry (h : entry.bytes.length < lineSize) :
    Gives (showEntry s entry) (Shell.showEntry s entry) :=
  (gives_strcpy (stringIn_text h) rfl).bind fun _ _ => .pure

theorem gives_saveInput (hline : s.historyIndex = -1 → ∃ i < lineSize, s.line i = 0) :
    Gives (saveInput s) (Shell.saveInput s) := by
  unfold saveInput Shell.saveInput
  split
  · next hindex =>
      obtain ⟨input, hinput⟩ := exists_stringIn_iff.mpr (hline hindex)
      rw [hinput]
      exact (gives_strcpy hinput rfl).bind fun _ _ => .pure
  · exact .pure

theorem gives_up (h : Sound s)
    (hline : s.history ≠ [] → s.historyIndex = -1 → ∃ i < lineSize, s.line i = 0) :
    Gives (up s) (Shell.up s) := by
  unfold up Shell.up
  split
  · exact .pure
  · next hnil =>
      have hne : s.history ≠ [] := fun h => hnil (List.length_eq_zero_iff.mpr h)
      refine (gives_saveInput (hline hne)).bind fun t ht => ?_
      have hsound := (saves_of_saveInput ht).sound h
      dsimp only
      split
      · refine Gives.attempt.bind fun entry hentry => gives_showEntry ?_
        exact hsound.entries entry (mem_of_historyEntry hentry)
      · exact .pure

theorem gives_down (h : Sound s) : Gives (down s) (Shell.down s) := by
  unfold down Shell.down
  split
  · exact .pure
  split
  · refine Gives.attempt.bind fun entry hentry => gives_showEntry ?_
    exact h.entries entry (mem_of_historyEntry hentry)
  · refine Gives.attempt.bind fun saved hsaved => ?_
    exact (gives_strcpy hsaved rfl).bind fun _ _ => .pure

theorem gives_backspace (h : Sound s) : Gives (backspace s) (some (Shell.backspace s)) := by
  have hpos := h.pos
  have hlen := h.lineLen
  unfold backspace Shell.backspace
  split
  · have hround : ∀ line : Buffer, ∀ i ∈ List.range' (s.pos - 1) (s.lineLen - 1 - (s.pos - 1)),
        Gives (assign .line line i (line (i + 1)))
          (some (Function.update line i (line (i + 1)))) := by
      intro line i hi
      rw [List.mem_range'_1] at hi
      have hlt : i < lineSize := by
        change i < 256
        omega
      exact Gives.assign hlt
    have hlast : s.lineLen - 1 < lineSize := by
      change _ < 256
      omega
    exact (Gives.foldlM hround s.line).then ((Gives.assign hlast).then .pure)
  · exact .pure

theorem pos_lt (h : Sound s) : s.pos < lineSize :=
  Nat.lt_succ_of_le (h.pos.trans h.lineLen)

theorem gives_enter (h : Sound s) (hfit : ∀ cmd ∈ entered s, PathFits cmd.bytes) :
    Gives (enter o s) (Shell.enter (fun line => (execute o line).run.value) s) := by
  refine (Gives.assign (pos_lt h)).then (Gives.attempt.bind fun cmd hcmd => ?_)
  have hlen := (stringIn_eq_some_iff.mp hcmd).1
  refine (gives_historyAdd h.entries h.room hlen).then ?_
  exact Gives.bind ⟨within_execute hcmd (hfit cmd hcmd), rfl⟩ fun _ _ => .pure

theorem gives_key (h : Sound s) (hc : Admitted s c) :
    Gives (key o s c) (Shell.key (fun line => (execute o line).run.value) s c) := by
  have hpos := pos_lt h
  unfold key Shell.key
  split
  · next hc' => exact gives_enter h (hc.enter hc')
  split
  · exact gives_backspace h
  split
  · next hc' => exact gives_up h (hc.up hc')
  split
  · exact gives_down h
  split
  · exact .pure
  split
  · exact .pure
  split
  · exact (Gives.assign hpos).then .pure
  · exact .pure

/-- The other keys store outside of an array. -/
theorem admitted_of_within (h : Sound s) (hw : (key o s c).run.Within Write.Inside) :
    Admitted s c := by
  constructor
  · intro hc hne hindex
    subst hc
    by_contra hnul
    have hsrc : ∀ j, 0 ≤ j → 0 + j < Target.savedLine.size → s.line j ≠ 0 :=
      fun j _ hj hzero => hnul ⟨j, by rwa [Nat.zero_add] at hj, hzero⟩
    have hout := (@strcpyLoop_outside .savedLine s.savedLine s.line 0 0 257 hsrc (by decide)
      (by decide)).2
    have hlength : s.history.length ≠ 0 := fun h => hne (List.length_eq_zero_iff.mp h)
    have hmem : ⟨.savedLine, 256⟩ ∈ (key o s keyUp).run.trace := by
      change _ ∈ (up s).run.trace
      rw [up, if_neg hlength, saveInput, if_pos hindex]
      exact mem_trace_run_bind.mpr (.inl (mem_trace_run_bind.mpr (.inl hout)))
    exact Nat.lt_irrefl 256 (hw _ hmem)
  · intro hc cmd hcmd
    subst hc
    by_contra hfit
    have hlen := (stringIn_eq_some_iff.mp hcmd).1
    have hmem : ⟨.path, 64⟩ ∈ (key o s 10).run.trace := by
      change _ ∈ (enter o s).run.trace
      have hstring : Gives (attempt (stringIn (Function.update s.line s.pos 0))) (some cmd) :=
        hcmd ▸ Gives.attempt
      refine (Gives.assign (pos_lt h)).mem_then (hstring.mem_then ?_)
      refine (gives_historyAdd h.entries h.room hlen).mem_then ?_
      exact mem_trace_run_bind.mpr (.inl (execute_outside hcmd hfit))
    exact Nat.lt_irrefl 64 (hw _ hmem)

end Keys

/-! ## Runs -/

/-- A run of the loop of `shell_main`, on keys and what the commands depend on. -/
def run (s : Editor) (presses : List (UInt8 × Outcome)) : OptionT (Traced Write) Editor :=
  presses.foldlM (fun s press => key press.2 s press.1) s

/-- Every key of a run is admitted in the state that it meets. -/
def AllAdmitted (s : Editor) (presses : List (UInt8 × Outcome)) : Prop :=
  ∀ before press after, presses = before ++ press :: after →
    ∀ t, (run s before).run.value = some t → Admitted t press.1

section Runs

variable {s t : Editor} {press : UInt8 × Outcome} {presses : List (UInt8 × Outcome)}

theorem run_cons (s : Editor) (press : UInt8 × Outcome) (presses : List (UInt8 × Outcome)) :
    run s (press :: presses) = key press.2 s press.1 >>= fun t => run t presses :=
  List.foldlM_cons

theorem allAdmitted_cons : AllAdmitted s (press :: presses) ↔ Admitted s press.1 ∧
    ∀ t, (key press.2 s press.1).run.value = some t → AllAdmitted t presses := by
  constructor
  · intro h
    refine ⟨h [] press presses rfl s rfl, fun t ht before press' after heq u hu => ?_⟩
    refine h (press :: before) press' after (by rw [heq]; rfl) u ?_
    rw [run_cons, value_run_bind, ht]
    exact hu
  · intro ⟨hfirst, hrest⟩ before press' after heq u hu
    cases before with
    | nil =>
        obtain ⟨rfl, -⟩ := List.cons.inj heq
        obtain rfl := Option.some.inj hu
        exact hfirst
    | cons first before =>
        obtain ⟨rfl, htail⟩ := List.cons.inj heq
        rw [run_cons, value_run_bind] at hu
        obtain ⟨t, ht, hu⟩ := Option.bind_eq_some_iff.mp hu
        exact hrest t ht before press' after htail u hu

theorem sound_key (h : Sound s) (ha : Admitted s press.1)
    (ht : (key press.2 s press.1).run.value = some t) : Sound t :=
  h.key ((gives_key h ha).value.symm.trans ht)

theorem run_within_iff (h : Sound s) :
    (run s presses).run.Within Write.Inside ↔ AllAdmitted s presses := by
  induction presses generalizing s with
  | nil => exact ⟨fun _ before press after heq => by simp at heq, fun _ => within_pure _⟩
  | cons press presses ih =>
      rw [run_cons, allAdmitted_cons]
      constructor
      · intro hw
        have ha : Admitted s press.1 :=
          admitted_of_within h fun w hmem => hw w (mem_trace_run_bind.mpr (.inl hmem))
        refine ⟨ha, fun t ht => (ih (sound_key h ha ht)).mp fun w hmem => ?_⟩
        exact hw w (mem_trace_run_bind.mpr (.inr ⟨t, ht, hmem⟩))
      · intro ⟨ha, hrest⟩
        refine .run_bind (gives_key h ha).inside fun t ht => ?_
        exact (ih (sound_key h ha ht)).mpr (hrest t ht)

theorem sound_run (h : Sound s) (ha : AllAdmitted s presses)
    (ht : (run s presses).run.value = some t) : Sound t := by
  induction presses generalizing s with
  | nil => exact Option.some.inj ht ▸ h
  | cons press presses ih =>
      obtain ⟨hfirst, hrest⟩ := allAdmitted_cons.mp ha
      rw [run_cons, value_run_bind] at ht
      obtain ⟨u, hu, ht⟩ := Option.bind_eq_some_iff.mp ht
      exact ih (sound_key h hfirst hu) (hrest u hu) ht

end Runs

/-- On every sequence of keys: the stores stay inside of their arrays, with the cursor in the line
and the line in its buffer between the keys, just when every key is admitted. -/
theorem shell_stores_inside_iff (stack : Buffer) (presses : List (UInt8 × Outcome)) :
    ((run (start stack) presses).run.Within Write.Inside ∧
      ∀ before after, presses = before ++ after →
        ∀ s, (run (start stack) before).run.value = some s → s.pos ≤ s.lineLen ∧ s.lineLen ≤ 255) ↔
      AllAdmitted (start stack) presses := by
  have hstart := (kept_start stack).toSound
  rw [run_within_iff hstart]
  refine and_iff_left_of_imp fun ha before after heq s hs => ?_
  have hbefore : AllAdmitted (start stack) before := by
    intro front press back hback t ht
    exact ha front press (back ++ after) (by rw [heq, hback]; simp) t ht
  have hsound := sound_run hstart hbefore hs
  exact ⟨hsound.pos, hsound.lineLen⟩

/-- The keys of `cat`, a word of 63 characters, and Enter. -/
theorem cat_overruns_path : let keys : List UInt8 := [99, 97, 116, 32] ++ List.replicate 63 97 ++ [10]
    ¬ (run (start fun _ => 0) (keys.map fun c => (c, ⟨false, [], true⟩))).run.Within
      Write.Inside := by
  intro keys h
  have hmem : ⟨.path, 64⟩ ∈
      (run (start fun _ => 0) (keys.map fun c => (c, ⟨false, [], true⟩))).run.trace := by
    decide +kernel
  exact Nat.lt_irrefl 64 (h _ hmem)

end SRos.Shell.Writes
