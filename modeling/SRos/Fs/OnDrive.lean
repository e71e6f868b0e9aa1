import SRos.Ata.Blocks
import SRos.Ata.Emulated
import SRos.Fs.Concurrent
import SRos.Fs.Confined

/-!
# The file system on an ATA drive

The requests of the file system calls are served by `block_read` and `block_write`, which drive
the ports. On a drive without errors this is the array of blocks that the file system is about:
whatever order the tasks make their requests in, every call returns what it returns on the array,
and the sectors hold its blocks.
-/

namespace SRos.Fs.Requests

open Ata (Drive)

variable {σ : Type} (D : Drive σ)

/-- The drive and the variables of the file system. -/
structure Driven (σ : Type) where
  drive : σ
  sb : SuperBlock
  mounted : Bool
  files : Nat → File
  log : List Note

namespace Driven

/-- The variables, with a disk that nobody looks at. -/
def vars (t : Driven σ) : FsState := ⟨fun _ => zeros, t.sb, t.mounted, t.files⟩

def setFile (t : Driven σ) (fd : Nat) (f : File) : Driven σ :=
  { t with files := Function.update t.files fd f }

end Driven

def Request.execOn : (r : Request) → Driven σ → r.Answer × Driven σ
  | .read blockNo buf, t =>
      let r := D.run (Ata.blockRead blockNo buf) t.drive
      (r.1, { t with drive := r.2 })
  | .write blockNo buf notes, t =>
      let r := D.run (Ata.blockWrite blockNo buf) t.drive
      ((), { t with drive := r.2, log := notes ++ t.log })
  | .offset fd, t => ((t.files fd).offset, t)
  | .advance fd n, t =>
      let file := t.files fd
      ((), t.setFile fd { file with offset := u32 (file.offset + n) })
  | .open ino, t =>
      match (List.range maxFiles).find? fun i => !(t.files i).inUse with
      | none => (none, t)
      | some fd => (some fd, t.setFile fd ⟨u32OfInt ino, 0, 2, true⟩)
  | .close fd, t => ((), t.setFile fd { t.files fd with inUse := false })

def machineOn : Machine Request Request.Answer (Driven σ) Seen where
  exec := Request.execOn D
  learn := Request.learn

abbrev CallsOn (σ : Type) := Threads Request Request.Answer (Driven σ) Seen Int

def callTurnOn : CallsOn σ → Turn FsAct → Option (CallsOn σ) :=
  (machineOn D).turn (fun t a => fsCall t.vars a) fun _ => none

/-- The drive holds the blocks, and the variables are the same. -/
structure Stored (s : Shared) (t : Driven σ) : Prop where
  rest : D.AtRest t.drive
  blocks : ∀ b < diskBlocks, s.fs.disk b = Ata.blockOf (D.view t.drive).medium b
  sb : s.fs.sb = SuperBlock.new
  sb_eq : t.sb = s.fs.sb
  mounted : t.mounted = s.fs.mounted
  files : t.files = s.fs.files
  log : t.log = s.log

variable {D} {s : Shared} {t : Driven σ}

theorem confined_blockOf (medium : Nat → Ata.Sector) (b : Nat) : Confined (Ata.blockOf medium b) :=
  fun _ hi => if_neg (Nat.not_lt.mpr hi)

/-- Two arrays of one block that agree in its bytes. -/
theorem Confined.ext {buf buf' : Buf} (h : Confined buf) (h' : Confined buf')
    (heq : ∀ i < blockSize, buf i = buf' i) : buf = buf' := by
  funext i
  by_cases hi : i < blockSize
  · exact heq i hi
  · rw [h i (Nat.le_of_not_lt hi), h' i (Nat.le_of_not_lt hi)]

theorem splice_block {buf src : Buf} (hbuf : Confined buf) (hsrc : Confined src) :
    Bytes.splice buf 0 blockSize src = src := by
  refine (hbuf.splice (by decide)).ext hsrc fun i hi => ?_
  have hinside : Bytes.splice buf 0 blockSize src (0 + i) = src i := Bytes.splice_inside hi
  rwa [Nat.zero_add] at hinside

/-- A read on a drive without errors. -/
theorem Stored.read (h : Stored D s t) (hD : D.Flawless) (b : Nat) {buf : Buf} (hbuf : Confined buf) :
    ((Request.read b buf).execOn D t).1 = ((Request.read b buf).exec s).1 ∧
      Confined ((Request.read b buf).exec s).1 ∧
      Stored D ((Request.read b buf).exec s).2 ((Request.read b buf).execOn D t).2 := by
  unfold Request.execOn Request.exec Fs.blockRead
  dsimp only
  by_cases hb : b < diskBlocks
  · obtain ⟨buf', t', hrun, hrest, hmedium, hend⟩ := Ata.run_blockRead D hb buf h.rest
    have hbuf' : buf' = s.fs.disk b := by
      rcases hend with rfl | ⟨herror, -⟩
      · rw [h.blocks b hb]
        exact splice_block hbuf (confined_blockOf _ b)
      · exact absurd herror (hD t')
    rw [hrun, if_neg (by omega)]
    refine ⟨hbuf', ?_, hrest, ?_, h.sb, h.sb_eq, h.mounted, h.files, h.log⟩
    · rw [h.blocks b hb]
      exact confined_blockOf _ b
    · dsimp only
      rw [hmedium]
      exact h.blocks
  · have hskip : Ata.blockRead b buf = .ret buf := if_pos (Nat.le_of_not_lt hb)
    rw [hskip, if_pos (by omega)]
    exact ⟨rfl, hbuf, h.rest, h.blocks, h.sb, h.sb_eq, h.mounted, h.files, h.log⟩

theorem Stored.write (h : Stored D s t) (hD : D.Flawless) (b : Nat) {buf : Buf} (hbuf : Confined buf)
    (notes : List Note) :
    Stored D ((Request.write b buf notes).exec s).2 ((Request.write b buf notes).execOn D t).2 := by
  unfold Request.execOn Request.exec FsState.write Fs.blockWrite
  dsimp only
  by_cases hb : b < diskBlocks
  · obtain ⟨r, t', hrun, hend⟩ := Ata.run_blockWrite D hb buf h.rest
    obtain ⟨j, -, hj, hbytes⟩ := hend.blockOf
    obtain rfl := hj (hD t')
    have hnew : Ata.blockOf (D.view t').medium b = buf :=
      (confined_blockOf _ b).ext hbuf fun i hi => (hbytes i hi).1 hi
    rw [hrun, if_neg (by omega)]
    refine ⟨hend.atRest D, fun c hc => ?_, h.sb, h.sb_eq, h.mounted, h.files, ?_⟩
    · dsimp only
      by_cases hcb : c = b
      · rw [hcb, Function.update_self, hnew]
      · rw [Function.update_of_ne hcb, h.blocks c hc]
        refine (Ata.blockOf_congr fun l hlow hhigh => hend.keep ?_).symm
        omega
    · exact congrArg (notes ++ ·) h.log
  · have hskip : Ata.blockWrite b buf = .ret () := if_pos (Nat.le_of_not_lt hb)
    rw [hskip, if_pos (by omega)]
    exact ⟨h.rest, h.blocks, h.sb, h.sb_eq, h.mounted, h.files, congrArg (notes ++ ·) h.log⟩

theorem Stored.setFile (h : Stored D s t) (fd : Nat) (f : File) :
    Stored D { s with fs := s.fs.setFile fd f } (t.setFile fd f) := by
  refine ⟨h.rest, h.blocks, h.sb, h.sb_eq, h.mounted, ?_, h.log⟩
  exact congrArg (Function.update · fd f) h.files

/-- `block_read` and `block_write` on a drive without errors simulate the array of blocks. -/
theorem simulates (hD : D.Flawless) :
    Simulates machine (machineOn D) (Stored D) Request.Ok Request.Good where
  learn := rfl
  answer s t r h hok := by
    change (r.execOn D t).1 = (r.exec s).1
    cases r with
    | read b buf => exact (h.read hD b hok).1
    | write b buf notes => rfl
    | offset fd => exact congrArg (fun files => (files fd).offset) h.files
    | advance fd n => rfl
    | «open» ino =>
        simp only [Request.execOn, Request.exec, h.files]
        cases (List.range maxFiles).find? fun i => !(s.fs.files i).inUse with
        | none => rfl
        | some fd => rfl
    | close fd => rfl
  good s t r h hok := by
    change r.Good (r.exec s).1
    cases r with
    | read b buf => exact (h.read hD b hok).2.1
    | write b buf notes => trivial
    | offset fd => trivial
    | advance fd n => trivial
    | «open» ino => trivial
    | close fd => trivial
  keep s t r h hok := by
    change Stored D (r.exec s).2 (r.execOn D t).2
    cases r with
    | read b buf => exact (h.read hD b hok).2.2
    | write b buf notes => exact h.write hD b hok notes
    | offset fd => exact h
    | advance fd n =>
        simp only [Request.execOn, Request.exec, h.files]
        exact h.setFile fd _
    | «open» ino =>
        simp only [Request.execOn, Request.exec, h.files]
        cases (List.range maxFiles).find? fun i => !(s.fs.files i).inUse with
        | none => exact h
        | some fd => exact h.setFile fd _
    | close fd =>
        simp only [Request.execOn, Request.exec, h.files]
        exact h.setFile fd _

/-- The program of a call depends on the variables of the file system only. -/
theorem fsCall_vars {fs fs' : FsState} (hsb : fs'.sb = fs.sb) (hmounted : fs'.mounted = fs.mounted)
    (hfiles : fs'.files = fs.files) (a : FsAct) : fsCall fs' a = fsCall fs a := by
  have hopen : ∀ fd, openFile fs' fd = openFile fs fd := fun fd => by
    unfold openFile
    rw [hfiles]
  cases a with
  | create name => simp only [fsCall, hsb]
  | «open» path => simp only [fsCall, sysOpen, hsb, hmounted]
  | read fd buf count => simp only [fsCall, sysRead, hopen, hsb]
  | write fd buf count => simp only [fsCall, sysWrite, hopen, hsb]
  | close fd => rfl

/-- The file system as the sectors of the drive hold it. -/
def Driven.contents (t : Driven σ) (D : Drive σ) : FsState :=
  ⟨Ata.blockOf (D.view t.drive).medium, t.sb, t.mounted, t.files⟩

def CallsOn.start (t : Driven σ) : CallsOn σ := ⟨t, fun _ => none⟩

/-- The same calls on the array of blocks and on the drive. -/
abbrev SameCalls (D : Drive σ) : Calls → CallsOn σ → Prop :=
  Simulates.Together (Stored D) Request.Ok Request.Good

theorem sameCalls_start {t : Driven σ} (hrest : D.AtRest t.drive) (hsb : t.sb = SuperBlock.new)
    (hlog : t.log = []) :
    SameCalls D (Calls.start (t.contents D)) (CallsOn.start t) where
  shared := ⟨hrest, fun _ _ => rfl, hsb, rfl, rfl, rfl, hlog⟩
  thread := rfl
  asks _ _ _ h := by cases h

theorem fsCall_stored {s : Shared} {t : Driven σ} (a : FsAct) (h : Stored D s t) :
    fsCall t.vars a = fsCall s.fs a := fsCall_vars h.sb_eq h.mounted h.files a

/-- What a state of the calls on the drive has in common with one of the calls on the array of
blocks: each task is at the same point of its call, the tables are the same, and every block of
the array is what the eight sectors of the block hold. -/
structure Agree (D : Drive σ) (s : Calls) (t : CallsOn σ) : Prop where
  thread : t.thread = s.thread
  mounted : t.shared.mounted = s.shared.fs.mounted
  files : t.shared.files = s.shared.fs.files
  log : t.shared.log = s.shared.log
  bytes : ∀ b < diskBlocks, ∀ i < blockSize,
    (D.view t.shared.drive).medium (b * 8 + i / 512) (i % 512) = s.shared.fs.disk b i

theorem SameCalls.agree {s : Calls} {t : CallsOn σ} (h : SameCalls D s t) : Agree D s t where
  thread := h.thread
  mounted := h.shared.mounted
  files := h.shared.files
  log := h.shared.log
  bytes := by
    intro b hb i hi
    rw [h.shared.blocks b hb]
    exact (if_pos hi).symm

/-- On a drive without errors, started on any contents, the file system calls of all tasks reach
exactly the states that they reach on the array of blocks, in every order of their requests. -/
theorem calls_on_drive (hD : D.Flawless) {t₀ : Driven σ} (hrest : D.AtRest t₀.drive)
    (hsb : t₀.sb = SuperBlock.new) (hlog : t₀.log = []) :
    (∀ t, Reach (callTurnOn D) (fun _ _ => True) (CallsOn.start t₀) t →
      ∃ s, Reach callTurn (fun _ _ => True) (Calls.start (t₀.contents D)) s ∧ Agree D s t) ∧
    ∀ s, Reach callTurn (fun _ _ => True) (Calls.start (t₀.contents D)) s →
      ∃ t, Reach (callTurnOn D) (fun _ _ => True) (CallsOn.start t₀) t ∧ Agree D s t := by
  have hsim := simulates hD
  have hasks : ∀ (s : Shared) (t : Driven σ) (a : FsAct), Stored D s t →
      (fsCall s.fs a).Asks Request.Ok Request.Good fun _ => True := fun s t a h =>
    stays_fsCall h.sb a
  have h₀ := sameCalls_start hrest hsb hlog
  constructor
  · intro t hreach
    obtain ⟨s, hs, hst⟩ := hsim.reach (fun _ _ a h => fsCall_stored a h) hasks h₀ hreach
    exact ⟨s, hs, SameCalls.agree hst⟩
  · intro s hreach
    obtain ⟨t, ht, hst⟩ := hsim.reach_back (fun _ _ a h => fsCall_stored a h) hasks h₀ hreach
    exact ⟨t, ht, SameCalls.agree hst⟩

/-- A mounted file system on the blank drive. -/
def Driven.blank : Driven { v : Ata.View // v.Sane [] } :=
  ⟨Ata.blank [], SuperBlock.new, true, fun _ => ⟨0, 0, 0, false⟩, []⟩

/-- A task that opens a file, up to its first block. -/
theorem calls_on_drive_open :
    ∃ t, runList (callTurnOn (Ata.emulated [])) (fun _ _ => true)
        [.call 0 (.open (some ⟨[0x2F, 0x61], by decide⟩)), .resume 0]
        (CallsOn.start Driven.blank) = some t ∧
      ∃ s, Reach callTurn (fun _ _ => True) (Calls.start (Driven.blank.contents (Ata.emulated []))) s ∧
        Agree (Ata.emulated []) s t := by
  obtain ⟨t, hrun⟩ : ∃ t, runList (callTurnOn (Ata.emulated [])) (fun _ _ => true)
      [.call 0 (.open (some ⟨[0x2F, 0x61], by decide⟩)), .resume 0]
      (CallsOn.start Driven.blank) = some t := ⟨_, rfl⟩
  have hreach : Reach (callTurnOn (Ata.emulated [])) (fun _ _ => True)
      (CallsOn.start Driven.blank) t := (Reach.of_runList .refl hrun).mono fun _ _ _ => trivial
  have hrest : (Ata.emulated []).AtRest Driven.blank.drive := rfl
  exact ⟨t, hrun, (calls_on_drive Ata.emulated_flawless hrest rfl rfl).1 t hreach⟩

end SRos.Fs.Requests
