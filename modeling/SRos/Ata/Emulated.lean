import SRos.Ata.Drive

/-!
# A drive with bad sectors

A drive that follows the protocol, is busy for two polls after each command and each sector, and
gives up at the sectors of a list.
-/

namespace SRos.Ata

variable (bad : List Nat)

namespace View

def status (v : View) : UInt8 :=
  if v.busy ≠ 0 then ataStatusBsy
  else match v.phase with
    | .idle true => ataStatusErr
    | .idle false => 0
    | .dataIn _ _ _ => ataStatusDrq
    | .dataOut _ _ _ => ataStatusDrq

def command (v : View) (cmd : UInt8) : View :=
  if cmd = ataCmdRead then
    { v with busy := 2, phase := if v.lba ∈ bad then .idle true else .dataIn v.lba v.count 0 }
  else if cmd = ataCmdWrite then { v with busy := 2, phase := .dataOut v.lba v.count [] }
  else v

/-- After word `word` of the sector `lba` has been read. -/
def handOut (v : View) (lba left word : Nat) : View :=
  if word + 1 < 256 then { v with phase := .dataIn lba left (word + 1) }
  else if left = 1 then { v with phase := .idle false }
  else { v with
    busy := 2, phase := if lba + 1 ∈ bad then .idle true else .dataIn (lba + 1) (left - 1) 0 }

/-- After a word of the sector `lba` has been written, and `words` are those of the sector. -/
def take (v : View) (lba left : Nat) (words : List UInt16) : View :=
  if words.length < 256 then { v with phase := .dataOut lba left words }
  else if lba ∈ bad then { v with phase := .idle true }
  else { v with
    medium := Function.update v.medium lba (sectorOf words)
    busy := 2
    phase := if left = 1 then .idle false else .dataOut (lba + 1) (left - 1) [] }

def pollStatus (v : View) (port : Nat) : UInt8 × View :=
  if port = ataPrimaryAltstat then (v.status, v.tick) else (0, v)

def writeRegister (v : View) (port : Nat) (val : UInt8) : View :=
  if port = ataPrimaryCmd then v.command bad val
  else if port ∈ taskFile then v.load port val
  else v

def readData (v : View) : UInt16 × View :=
  match v.phase with
  | .dataIn lba left word => (wordAt (v.medium lba) (word * 2), v.handOut bad lba left word)
  | .dataOut _ _ _ => (0, v)
  | .idle _ => (0, v)

def writeData (v : View) (val : UInt16) : View :=
  match v.phase with
  | .dataOut lba left words => v.take bad lba left (words ++ [val])
  | .dataIn _ _ _ => v
  | .idle _ => v

def step (v : View) : (a : Port) → a.Answer × View
  | .inb port => v.pollStatus port
  | .outb port val => ((), v.writeRegister bad port val)
  | .inw _ => v.readData bad
  | .outw _ val => ((), v.writeData bad val)
  | .inl _ => (0, v)
  | .outl _ _ => ((), v)

/-- The states of the drive. -/
structure Sane (v : View) : Prop where
  busy : v.busy ≤ 2
  phase : bad = [] → v.phase ≠ .idle true

variable {bad}

/-- Without bad sectors the drive never gives up. -/
theorem phase_of_good {l : Nat} {p : Phase} (hp : p ≠ .idle true) (hbad : bad = []) :
    (if l ∈ bad then .idle true else p) ≠ .idle true := by
  rwa [if_neg (by simp [hbad])]

theorem Sane.writeRegister {v : View} (h : v.Sane bad) (port : Nat) (val : UInt8) :
    (v.writeRegister bad port val).Sane bad := by
  unfold View.writeRegister command
  split
  · split
    · exact ⟨Nat.le_refl 2, phase_of_good (by simp)⟩
    · split
      · exact ⟨Nat.le_refl 2, fun _ => by simp⟩
      · exact h
  · split
    · exact ⟨h.busy, h.phase⟩
    · exact h

theorem Sane.readData {v : View} (h : v.Sane bad) : (v.readData bad).2.Sane bad := by
  unfold View.readData
  split
  · unfold handOut
    dsimp only
    split
    · exact ⟨h.busy, fun _ => by simp⟩
    · split
      · exact ⟨h.busy, fun _ => by simp⟩
      · exact ⟨Nat.le_refl 2, phase_of_good (by simp)⟩
  · exact h
  · exact h

theorem Sane.writeData {v : View} (h : v.Sane bad) (val : UInt16) :
    (v.writeData bad val).Sane bad := by
  unfold View.writeData
  split
  · unfold take
    split
    · exact ⟨h.busy, fun _ => by simp⟩
    · split
      · next hmem => exact ⟨h.busy, fun hbad => by simp [hbad] at hmem⟩
      · refine ⟨Nat.le_refl 2, fun _ => ?_⟩
        dsimp only
        split <;> simp
  · exact h
  · exact h

theorem Sane.step {v : View} (h : v.Sane bad) (a : Port) : (v.step bad a).2.Sane bad := by
  cases a with
  | inb port =>
      change (v.pollStatus port).2.Sane bad
      unfold pollStatus
      split
      · exact ⟨Nat.le_trans (Nat.sub_le _ _) h.busy, h.phase⟩
      · exact h
  | outb port val => exact h.writeRegister port val
  | inw port => exact h.readData
  | outw port val => exact h.writeData val
  | inl port => exact h
  | outl port val => exact h

theorem shows_status (v : View) : v.Shows v.status := by
  unfold status
  by_cases hbusy : v.busy = 0
  · rw [if_neg (not_not.mpr hbusy)]
    constructor <;> cases hphase : v.phase with
    | idle err => cases err <;> simp +decide [hbusy]
    | dataIn lba left word => simp +decide [hbusy, Phase.isIdle]
    | dataOut lba left words => simp +decide [hbusy, Phase.isIdle]
  · rw [if_pos hbusy]
    exact ⟨⟨fun h => absurd h (by decide), fun h => absurd h hbusy⟩, fun h => absurd h hbusy,
      fun h => absurd h hbusy⟩

theorem reads_command (bad : List Nat) (v : View) : v.Reads (v.command bad ataCmdRead) := by
  unfold command
  rw [if_pos rfl]
  refine ⟨rfl, ?_⟩
  unfold GoesOn
  dsimp only
  split
  · exact .inr rfl
  · exact .inl rfl

theorem writes_command (bad : List Nat) (v : View) : v.Writes (v.command bad ataCmdWrite) := by
  unfold command
  rw [if_neg (by decide), if_pos rfl]
  exact ⟨rfl, .inl rfl⟩

theorem handsOut_handOut {v : View} {lba left word : Nat} (hbusy : v.busy = 0) (hword : word < 256) :
    v.HandsOut (v.handOut bad lba left word) lba left word := by
  unfold handOut
  split
  · next hmore => exact ⟨rfl, fun _ => ⟨hbusy, rfl⟩, by omega, by omega⟩
  · split
    · next hdone => exact ⟨rfl, by omega, by omega, fun _ _ => rfl⟩
    · refine ⟨rfl, by omega, fun _ _ => ?_, by omega⟩
      unfold GoesOn
      dsimp only
      split
      · exact .inr rfl
      · exact .inl rfl

theorem takes_take {v : View} {lba left : Nat} {words : List UInt16} (hbusy : v.busy = 0) :
    v.Takes (v.take bad lba left words) lba left words := by
  unfold take
  split
  · next hmore => exact ⟨fun _ => ⟨rfl, hbusy, rfl⟩, by omega⟩
  · refine ⟨by omega, fun _ => ?_⟩
    split
    · exact .error (fun _ _ => rfl) rfl
    · exact .done rfl rfl

end View

/-- The drive whose bad sectors are those of the list. -/
def emulated (bad : List Nat) : Drive { v : View // v.Sane bad } where
  exec a s := ((s.1.step bad a).1, ⟨(s.1.step bad a).2, s.2.step a⟩)
  view s := s.1
  poll s := ⟨s.1.shows_status, rfl⟩
  load s port val _ hport := by
    change s.1.writeRegister bad port val = _
    unfold View.writeRegister
    rw [if_neg (fun h => absurd (h ▸ hport) (by decide)), if_pos hport]
  read _ _ _ := View.reads_command bad _
  write _ _ _ := View.writes_command bad _
  dataIn s lba left word hbusy hphase hword := by
    change (s.1.readData bad).1 = _ ∧ s.1.HandsOut (s.1.readData bad).2 lba left word
    unfold View.readData
    rw [hphase]
    exact ⟨rfl, View.handsOut_handOut hbusy hword⟩
  dataOut s x lba left words hbusy hphase _ := by
    change s.1.Takes (s.1.writeData bad x) lba left (words ++ [x])
    unfold View.writeData
    rw [hphase]
    exact View.takes_take hbusy
  prompt s := Nat.lt_of_le_of_lt s.2.busy (by decide)

theorem emulated_flawless : (emulated []).Flawless := fun s => s.2.phase rfl

/-- An empty drive that nobody has used. -/
def blank (bad : List Nat) : { v : View // v.Sane bad } :=
  ⟨⟨fun _ _ => 0, fun _ => 0, .idle false, 0⟩, by decide, fun _ => by simp⟩

end SRos.Ata
