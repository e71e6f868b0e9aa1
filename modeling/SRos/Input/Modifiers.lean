import SRos.Input.Rings

/-!
# The modifier keys

`keyboard_handler` keeps one flag for both Shift keys. The flag is cleared when one of them is
released, also while the other one is still held down.
-/

namespace SRos.Input

open RingBuffer

/-! ## The keys -/

/-- A key, given by its scan code. -/
abbrev Key := Fin 128

inductive KeyEvent
  | press (k : Key)
  | release (k : Key)

/-- The make or break code. -/
def KeyEvent.code : KeyEvent → UInt8
  | .press k => UInt8.ofNat k
  | .release k => UInt8.ofNat (k + 128)

def leftShift : Key := 0x2A
def rightShift : Key := 0x36
def capsLock : Key := 0x3A

def normalEntry (k : Key) : UInt8 := kbdUsNormal.getD k 0
def shiftEntry (k : Key) : UInt8 := kbdUsShift.getD k 0

/-- The key is down after these events. -/
def held (k : Key) (es : List KeyEvent) : Bool :=
  es.foldl (fun down e => match e with
    | .press k' => if k' = k then true else down
    | .release k' => if k' = k then false else down) false

/-- The last event of a Shift key is a press. -/
def shiftPressedLast (es : List KeyEvent) : Bool :=
  es.foldl (fun last e => match e with
    | .press k => if k = leftShift ∨ k = rightShift then true else last
    | .release k => if k = leftShift ∨ k = rightShift then false else last) false

/-- Caps Lock has been pressed an odd number of times. -/
def capsOdd (es : List KeyEvent) : Bool :=
  es.foldl (fun odd e => match e with
    | .press k => if k = capsLock then !odd else odd
    | .release _ => odd) false

/-- A letter in the other case. -/
def invertCase (b : UInt8) : UInt8 :=
  if 97 ≤ b ∧ b ≤ 122 then b - 32 else if 65 ≤ b ∧ b ≤ 90 then b + 32 else b

/-- The byte that a press of the key means after these events. -/
def meant (es : List KeyEvent) (k : Key) : UInt8 :=
  let b := if held leftShift es || held rightShift es then shiftEntry k else normalEntry k
  if capsOdd es then invertCase b else b

/-- The byte that a press of the key means if the last event of a Shift key decides. -/
def sent (es : List KeyEvent) (k : Key) : UInt8 :=
  let b := if shiftPressedLast es then shiftEntry k else normalEntry k
  if capsOdd es then invertCase b else b

/-- A Shift key is held down, but the other one has been released after its last press. -/
def ShiftForgotten (es : List KeyEvent) : Prop :=
  (held leftShift es || held rightShift es) = true ∧ shiftPressedLast es = false

/-! ## The handler -/

/-- A key is pressed or released, or a byte is read from the ring. -/
inductive KeyUse
  | key (e : KeyEvent)
  | get

def useKey (k : Keyboard) : KeyUse → Keyboard
  | .key e => scan e.code k
  | .get => (kbdBufferGet k).2

def keyRun (us : List KeyUse) : Keyboard := us.foldl useKey Keyboard.boot

def keysOf (us : List KeyUse) : List KeyEvent :=
  us.filterMap fun
    | .key e => some e
    | .get => none

/-- The bytes in the ring, oldest first. -/
def Keyboard.queue (k : Keyboard) : List UInt8 := k.buffer.queue keyboardBufferSize

theorem table_entries : ∀ k : Key, normalEntry k ≠ 0 → shiftEntry k ≠ 0 ∧
    k ≠ leftShift ∧ k ≠ rightShift ∧ k ≠ 0x1D ∧ k ≠ capsLock ∧ invertCase (normalEntry k) ≠ 0 ∧
    invertCase (shiftEntry k) ≠ 0 ∧
    (invertCase (shiftEntry k) = invertCase (normalEntry k) ↔ shiftEntry k = normalEntry k) := by
  decide +kernel

theorem make_code : ∀ k : Key, (KeyEvent.press k).code &&& 0x80 = 0 ∧
    (KeyEvent.press k).code.toNat = k := by
  decide +kernel

theorem break_code : ∀ k : Key, (KeyEvent.release k).code &&& 0x80 ≠ 0 ∧
    (KeyEvent.release k).code &&& 0x7F = (KeyEvent.press k).code := by
  decide +kernel

theorem code_eq_iff (k : Key) {c : UInt8} (hc : c.toNat < 128) :
    (KeyEvent.press k).code = c ↔ k = ⟨c.toNat, hc⟩ := by
  rw [← UInt8.toNat_inj, (make_code k).2, Fin.ext_iff]

theorem scan_release (k : Key) (s : Keyboard) : scan (KeyEvent.release k).code s =
    if k = leftShift ∨ k = rightShift then { s with shiftPressed := false }
    else if k = 0x1D then { s with ctrlPressed := false } else s := by
  obtain ⟨hhigh, hlow⟩ := break_code k
  simp only [scan, if_pos hhigh, hlow, code_eq_iff k (show (0x2A : UInt8).toNat < 128 by decide),
    code_eq_iff k (show (0x36 : UInt8).toNat < 128 by decide),
    code_eq_iff k (show (0x1D : UInt8).toNat < 128 by decide)]
  rfl

theorem scan_press (k : Key) (s : Keyboard) : scan (KeyEvent.press k).code s =
    if k = leftShift ∨ k = rightShift then { s with shiftPressed := true }
    else if k = 0x1D then { s with ctrlPressed := true }
    else if k = capsLock then { s with capsLockActive := !s.capsLockActive }
    else translate (KeyEvent.press k).code s := by
  have hlow : ¬ (KeyEvent.press k).code &&& 0x80 ≠ 0 := not_not.mpr (make_code k).1
  simp only [scan, if_neg hlow, code_eq_iff k (show (0x2A : UInt8).toNat < 128 by decide),
    code_eq_iff k (show (0x36 : UInt8).toNat < 128 by decide),
    code_eq_iff k (show (0x1D : UInt8).toNat < 128 by decide),
    code_eq_iff k (show (0x3A : UInt8).toNat < 128 by decide)]
  rfl

/-- Another key leaves the modifiers. -/
theorem modifiers_translate (c : UInt8) (s : Keyboard) :
    (translate c s).shiftPressed = s.shiftPressed ∧
      (translate c s).capsLockActive = s.capsLockActive := by
  unfold translate
  dsimp only
  split_ifs <;> exact ⟨rfl, rfl⟩

/-- A key with an entry in the layout tables queues the byte for the flag. -/
theorem scan_entry {k : Key} (hentry : normalEntry k ≠ 0) (s : Keyboard) :
    scan (KeyEvent.press k).code s = kbdBufferPut s
      ((let b := if s.shiftPressed then shiftEntry k else normalEntry k
        if s.capsLockActive then invertCase b else b).toNat) := by
  obtain ⟨hshift, hleft, hright, hctrl, hcaps, hinv, hinv', -⟩ := table_entries k hentry
  rw [scan_press, if_neg (by simp [hleft, hright]), if_neg hctrl, if_neg hcaps]
  unfold translate
  have hch : (if s.shiftPressed then kbdUsShift else kbdUsNormal).getD
      (KeyEvent.press k).code.toNat 0 = if s.shiftPressed then shiftEntry k else normalEntry k := by
    rw [(make_code k).2]
    split <;> rfl
  have hne : (if s.shiftPressed then shiftEntry k else normalEntry k) ≠ 0 := by
    split
    · exact hshift
    · exact hentry
  have hinvNe : invertCase (if s.shiftPressed then shiftEntry k else normalEntry k) ≠ 0 := by
    split
    · exact hinv'
    · exact hinv
  rw [hch]
  generalize (if s.shiftPressed then shiftEntry k else normalEntry k) = b at hne hinvNe ⊢
  simp only [hne, false_and, if_false]
  cases s.capsLockActive with
  | false => simp [hne]
  | true =>
      simp only [true_and, if_true]
      exact if_pos hinvNe

/-! ## Runs -/

section Runs

variable {us : List KeyUse} {u : KeyUse} {k : Key}

@[simp] theorem keysOf_append (us vs : List KeyUse) : keysOf (us ++ vs) = keysOf us ++ keysOf vs :=
  List.filterMap_append ..

theorem keyRun_snoc (us : List KeyUse) (u : KeyUse) : keyRun (us ++ [u]) = useKey (keyRun us) u :=
  List.foldl_append ..

theorem shiftPressedLast_snoc (es : List KeyEvent) (e : KeyEvent) :
    shiftPressedLast (es ++ [e]) = match e with
      | .press k => if k = leftShift ∨ k = rightShift then true else shiftPressedLast es
      | .release k => if k = leftShift ∨ k = rightShift then false else shiftPressedLast es :=
  List.foldl_append ..

theorem capsOdd_snoc (es : List KeyEvent) (e : KeyEvent) :
    capsOdd (es ++ [e]) = match e with
      | .press k => if k = capsLock then !capsOdd es else capsOdd es
      | .release _ => capsOdd es :=
  List.foldl_append ..

theorem held_snoc (k : Key) (es : List KeyEvent) (e : KeyEvent) :
    held k (es ++ [e]) = match e with
      | .press k' => if k' = k then true else held k es
      | .release k' => if k' = k then false else held k es :=
  List.foldl_append ..

theorem scan_flags (e : KeyEvent) (s : Keyboard) (es : List KeyEvent)
    (h : s.shiftPressed = shiftPressedLast es ∧ s.capsLockActive = capsOdd es) :
    (scan e.code s).shiftPressed = shiftPressedLast (es ++ [e]) ∧
      (scan e.code s).capsLockActive = capsOdd (es ++ [e]) := by
  rw [shiftPressedLast_snoc, capsOdd_snoc]
  cases e with
  | press k =>
      rw [scan_press]
      by_cases hshift : k = leftShift ∨ k = rightShift
      · have hcaps : k ≠ capsLock := by
          rcases hshift with rfl | rfl <;> decide
        simp only [hshift, if_true, hcaps, if_false]
        exact ⟨trivial, h.2⟩
      · simp only [hshift, if_false]
        by_cases hctrl : k = 0x1D
        · have hcaps : k ≠ capsLock := by
            rw [hctrl]
            decide
          simp only [hctrl, if_true]
          exact ⟨h.1, h.2.trans (if_neg (hctrl ▸ hcaps)).symm⟩
        · simp only [hctrl, if_false]
          by_cases hcaps : k = capsLock
          · simp only [hcaps, if_true]
            exact ⟨h.1, congrArg _ h.2⟩
          · simp only [hcaps, if_false]
            have htranslate := modifiers_translate (KeyEvent.press k).code s
            exact ⟨htranslate.1.trans h.1, htranslate.2.trans h.2⟩
  | release k =>
      rw [scan_release]
      by_cases hshift : k = leftShift ∨ k = rightShift
      · simp only [hshift, if_true]
        exact ⟨trivial, h.2⟩
      · simp only [hshift, if_false]
        split <;> exact h

/-- The flags of the driver. -/
theorem flags_keyRun (us : List KeyUse) :
    (keyRun us).shiftPressed = shiftPressedLast (keysOf us) ∧
      (keyRun us).capsLockActive = capsOdd (keysOf us) := by
  induction us using List.reverseRecOn with
  | nil => exact ⟨rfl, rfl⟩
  | append_singleton us u ih =>
      rw [keyRun_snoc, keysOf_append]
      cases u with
      | key e => exact scan_flags e _ _ ih
      | get =>
          rw [show keysOf [KeyUse.get] = [] from rfl, List.append_nil]
          unfold useKey kbdBufferGet
          dsimp only
          split <;> exact ih

/-- If a press was the last event of a Shift key, that key is down. -/
theorem held_of_shiftPressedLast (es : List KeyEvent) (h : shiftPressedLast es = true) :
    (held leftShift es || held rightShift es) = true := by
  induction es using List.reverseRecOn with
  | nil => cases h
  | append_singleton es e ih =>
      rw [shiftPressedLast_snoc] at h
      rw [held_snoc, held_snoc]
      cases e with
      | press k =>
          by_cases hshift : k = leftShift ∨ k = rightShift
          · rcases hshift with rfl | rfl <;> simp
          · simp only [hshift, if_false] at h
            obtain ⟨hleft, hright⟩ := not_or.mp hshift
            simp only [hleft, hright, if_false]
            exact ih h
      | release k =>
          by_cases hshift : k = leftShift ∨ k = rightShift
          · simp [hshift] at h
          · simp only [hshift, if_false] at h
            obtain ⟨hleft, hright⟩ := not_or.mp hshift
            simp only [hleft, hright, if_false]
            exact ih h

theorem ofInt_toNat (b : UInt8) : UInt8.ofInt (b.toNat : Int) = b := by
  apply UInt8.toNat_inj.mp
  have hlt := b.toNat_lt
  simp only [UInt8.ofInt, UInt8.toNat_ofNat']
  omega

/-- The handler puts no NUL in the ring. -/
theorem translate_puts (c : UInt8) (s : Keyboard) : (translate c s).buffer = s.buffer ∨
    ∃ b, b ≠ 0 ∧ (translate c s).buffer = s.buffer.put 256 b := by
  have hput : ∀ x, UInt8.ofInt x ≠ 0 → (kbdBufferPut s x).buffer = s.buffer ∨
      ∃ b, b ≠ 0 ∧ (kbdBufferPut s x).buffer = s.buffer.put 256 b := fun x hx => .inr ⟨_, hx, rfl⟩
  unfold translate
  generalize (if s.shiftPressed then kbdUsShift else kbdUsNormal).getD c.toNat 0 = ch
  dsimp only
  split
  · exact hput keyUp (by decide)
  split
  · exact hput keyDown (by decide)
  split
  · exact hput keyLeft (by decide)
  split
  · exact hput keyRight (by decide)
  generalize (if s.capsLockActive = true ∧ 97 ≤ ch ∧ ch ≤ 122 then ch - 32
    else if s.capsLockActive = true ∧ 65 ≤ ch ∧ ch ≤ 90 then ch + 32 else ch) = ch
  split
  · next hch => exact hput ch.toNat (by rwa [ofInt_toNat])
  · exact .inl rfl

theorem scan_puts (e : KeyEvent) (s : Keyboard) : (scan e.code s).buffer = s.buffer ∨
    ∃ b, b ≠ 0 ∧ (scan e.code s).buffer = s.buffer.put 256 b := by
  cases e with
  | press k =>
      rw [scan_press]
      repeat' split
      all_goals first
        | exact .inl rfl
        | exact translate_puts _ _
  | release k =>
      rw [scan_release]
      repeat' split
      all_goals exact .inl rfl

/-- The ring holds characters and keys, and no NUL. -/
theorem exists_holds (us : List KeyUse) :
    ∃ bs, (keyRun us).buffer.Holds 256 bs ∧ (0 : UInt8) ∉ bs := by
  induction us using List.reverseRecOn with
  | nil => exact ⟨[], Table.holds_nil _ (by decide), List.not_mem_nil⟩
  | append_singleton us u ih =>
      obtain ⟨bs, hbs, hnul⟩ := ih
      rw [keyRun_snoc]
      cases u with
      | key e =>
          change ∃ bs, (scan e.code (keyRun us)).buffer.Holds 256 bs ∧ (0 : UInt8) ∉ bs
          rcases scan_puts e (keyRun us) with hsame | ⟨b, hb, hput⟩
          · exact ⟨bs, hsame ▸ hbs, hnul⟩
          · rw [hput]
            by_cases hfull : bs.length = 255
            · exact ⟨bs, (hbs.put_full hfull).symm ▸ hbs, hnul⟩
            · exact ⟨bs ++ [b], hbs.put hfull, by simp [hnul, hb.symm]⟩
      | get =>
          change ∃ bs, (kbdBufferGet (keyRun us)).2.buffer.Holds 256 bs ∧ (0 : UInt8) ∉ bs
          unfold kbdBufferGet
          split
          · exact ⟨bs, hbs, hnul⟩
          · next hne =>
              cases bs with
              | nil => exact absurd (hbs.empty_iff.mpr rfl) hne
              | cons b bs => exact ⟨bs, hbs.drop.2, fun h => hnul (List.mem_cons_of_mem b h)⟩

/-- The ring holds what is in its queue. -/
theorem holds_queue (us : List KeyUse) : (keyRun us).buffer.Holds 256 (keyRun us).queue := by
  obtain ⟨bs, hbs, -⟩ := exists_holds us
  rw [Keyboard.queue, keyboardBufferSize, hbs.queue]
  exact hbs

/-- What the handler queues is never the NUL that ends a string. -/
theorem ne_zero_of_mem_queue {us : List KeyUse} {b : UInt8} (h : b ∈ (keyRun us).queue) :
    b ≠ 0 := by
  obtain ⟨bs, hbs, hnul⟩ := exists_holds us
  rw [Keyboard.queue, keyboardBufferSize, hbs.queue] at h
  exact fun hb => hnul (hb ▸ h)

end Runs

/-- The handler goes by the last event of a Shift key. -/
theorem queue_press {us : List KeyUse} {k : Key} (hentry : normalEntry k ≠ 0)
    (hroom : (keyRun us).queue.length ≠ 255) :
    (keyRun (us ++ [.key (.press k)])).queue = (keyRun us).queue ++ [sent (keysOf us) k] := by
  obtain ⟨hshift, hcaps⟩ := flags_keyRun us
  have hput := (holds_queue us).put (x := sent (keysOf us) k) hroom
  rw [keyRun_snoc]
  change (scan (KeyEvent.press k).code (keyRun us)).buffer.queue 256 = _
  rw [scan_entry hentry, hshift, hcaps]
  change ((keyRun us).buffer.put 256 (UInt8.ofInt ((sent (keysOf us) k).toNat : Int))).queue 256 = _
  rw [ofInt_toNat, hput.queue]

theorem sent_eq_meant_iff {es : List KeyEvent} {k : Key} (hentry : normalEntry k ≠ 0) :
    sent es k = meant es k ↔ normalEntry k = shiftEntry k ∨ ¬ ShiftForgotten es := by
  obtain ⟨-, -, -, -, -, -, -, hinvert⟩ := table_entries k hentry
  unfold sent meant ShiftForgotten
  cases hlast : shiftPressedLast es with
  | true => simp [held_of_shiftPressedLast es hlast]
  | false =>
      cases hheld : held leftShift es || held rightShift es with
      | false => simp
      | true =>
          cases capsOdd es with
          | false => simp
          | true =>
              simp only [Bool.false_eq_true, if_false, if_true, and_self, not_true_eq_false, or_false]
              rw [eq_comm, hinvert, eq_comm]

/-- After every sequence of presses and releases, with reads in between: a press of a key with a
table entry queues exactly the byte that is meant, unless the table entries of the key differ and
a Shift key is held down while the last event of a Shift key was the release of the other one. -/
theorem press_queues_iff (us : List KeyUse) (k : Key) (hentry : normalEntry k ≠ 0)
    (hroom : (keyRun us).queue.length ≠ 255) :
    (keyRun (us ++ [.key (.press k)])).queue = (keyRun us).queue ++ [meant (keysOf us) k] ↔
      normalEntry k = shiftEntry k ∨ ¬ ShiftForgotten (keysOf us) := by
  rw [queue_press hentry hroom, List.append_right_inj, List.singleton_inj,
    sent_eq_meant_iff hentry]

/-- The key `a` while the left Shift key is held down. -/
theorem press_queues_shifted :
    (keyRun ([.key (.press leftShift)] ++ [.key (.press 0x1E)])).queue = [65] := by
  have hqueue := (press_queues_iff [.key (.press leftShift)] 0x1E (by decide) (by decide)).mpr
    (.inr fun h => absurd h.2 (by decide))
  exact hqueue

/-- The key `a` while the left Shift key is held down, and the right one has been released. -/
theorem press_queues_forgotten :
    ¬ (keyRun ([.key (.press leftShift), .key (.press rightShift), .key (.release rightShift)] ++
          [.key (.press 0x1E)])).queue =
        (keyRun [.key (.press leftShift), .key (.press rightShift),
          .key (.release rightShift)]).queue ++
        [meant [.press leftShift, .press rightShift, .release rightShift] 0x1E] := by
  decide

end SRos.Input
