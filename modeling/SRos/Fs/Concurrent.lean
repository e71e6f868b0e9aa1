import SRos.Fs.Interleaved

/-!
# Runs of file system calls by several tasks

Each task that is in a call has the rest of the call's requests in front of it, and the timer
decides which task makes its next request.
-/

namespace SRos.Fs.Requests

open Bytes

abbrev Calls := Threads Request Request.Answer Shared Seen Int

/-- A file system that no task has called yet. -/
def Calls.start (s : FsState) : Calls := ⟨⟨s, []⟩, fun _ => none⟩

def callTurn : Calls → Turn FsAct → Option Calls :=
  machine.turn (fun s a => fsCall s.fs a) fun _ => none

/-- What the calls have taken and written stays apart: no number has been returned twice, and
every directory entry that was written is still in its place. -/
structure Apart (s : Shared) : Prop where
  blocks : (blocksTaken s.log).Nodup
  inodes : (inodesTaken s.log).Nodup
  dentries : ∀ b di e, .dentry b di e ∈ s.log → Lies s.fs.disk b di e

theorem SharedOk.apart {o : Owners} {s : Shared} (h : SharedOk o s) : Apart s where
  blocks := h.tables.blocks_nodup
  inodes := h.tables.inodes_nodup
  dentries := fun b di e hmem => (h.dentries b di e hmem).lies

/-- No call writes through a descriptor of a directory, no call gives an inode back, and every
write of a bitmap or a directory block finds the block as its call has left it. -/
def Orderly (s : Calls) : Turn FsAct → Prop
  | .call _ a => CallOk s.shared a
  | .resume t => ∀ r rest seen, s.thread t = some (.act r rest, seen) →
      Undisturbed s.shared seen r ∧ KeepsInodes r

theorem okTurn_of_orderly {s : Calls} {turn : Turn FsAct} (h : Orderly s turn) :
    protocol.okTurn CallOk s turn := by
  cases turn with
  | call t a => exact h
  | resume t => exact h

theorem decode_zeros (off : Nat) : Inode.decode zeros off = Inode.zero := by
  have hword : ∀ a, load32 zeros a = 0 := fun a => load32_of_bytes (by decide) fun k hk => by
    simp [zeros, byte32]
  unfold Inode.decode Inode.zero
  simp only [hword, ite_self]
  rfl

theorem image_inode (d : Disk) {ino : Nat} (hino : IsIno ino) :
    (image d).inode ino = Inode.decode (d (tableBlock ino)) (inodeOffset ino) :=
  if_pos hino

/-- The inode table of a new file system has one inode. -/
theorem booted_inode (s : FsState) {ino : Nat} (hino : IsIno ino) :
    Inode.decode ((fsBoot s).disk (tableBlock ino)) (inodeOffset ino) =
      if ino = rootIno then Inode.newRoot else Inode.zero := by
  have hformat : (image (formatBlocks s).disk).inode ino = Inode.zero := by
    have hblock : (formatBlocks s).disk (tableBlock ino) = zeros := by
      unfold formatBlocks
      rcases tableBlock_cases hino with hb | hb
      · rw [hb, write_disk_of_ne (by decide)]
        exact write_disk_self (by decide) _
      · rw [hb]
        exact write_disk_self (by decide) _
    rw [image_inode _ hino, hblock, decode_zeros]
  rw [← image_inode _ hino, image_fsBoot]
  simp only [Image.setInode, Image.setData, Function.update_apply]
  split
  · rfl
  · exact hformat

/-- At boot the directory owns its one block. -/
def bootOwners : Owners := Function.update (fun _ => .free) dataBlockStart .dir

theorem sharedOk_boot (s : FsState) : SharedOk bootOwners ⟨fsBoot s, []⟩ := by
  have hbooted := booted_fsBoot s
  constructor
  · constructor
    · exact hbooted.sb
    · intro ino hino
      rw [booted_inode s hino]
      split
      · next hroot =>
          subst hroot
          refine ⟨packed_newRoot, .inr rfl, by decide, fun _ => rfl, ?_, fun hne => absurd rfl hne⟩
          intro _ i hi
          have hzero : i = 0 := Nat.lt_one_iff.mp hi
          subst hzero
          rfl
      · next hroot =>
          refine ⟨?_, .inl rfl, Nat.zero_le _, fun h => absurd h hroot, fun h => absurd h hroot,
            fun _ _ => .inl rfl⟩
          rw [← decode_zeros 0]
          exact Inode.packed_decode _ _
    · intro b hb
      have heq : b = dataBlockStart := by
        by_contra hne
        exact hb (Function.update_of_ne hne _ _)
      subst heq
      refine ⟨by decide, ?_⟩
      have hused := hbooted.blockUsed dataBlockStart
      simpa [image] using hused
    · intro ino hino
      have hused := hbooted.inodeUsed ino
      simpa [image, hino] using hused
    · exact List.nodup_nil
    · simp [blocksTaken]
    · exact List.nodup_nil
    · simp [inodesTaken]
  · simp

/-- The blocks are as the call has left them. -/
def Current (s : Shared) (seen : Seen) : Prop := ∀ b buf, seen b = some buf → s.fs.disk b = buf

/-- Nobody else has written in between, so a call that goes on knows the blocks it has used. -/
theorem Current.exec {s : Shared} {seen : Seen} (h : Current s seen) (r : Request) :
    Current (r.exec s).2 (r.learn (r.exec s).1 seen) := by
  cases r with
  | read b buf =>
      intro c buf' hc
      simp only [Request.exec, Request.learn] at hc ⊢
      split at hc
      · exact h c buf' hc
      · next hb =>
          by_cases hcb : c = b
          · subst hcb
            rw [Function.update_self] at hc
            rw [← Option.some.inj hc, blockRead_lt (by omega)]
          · rw [Function.update_of_ne hcb] at hc
            exact h c buf' hc
  | write b buf notes =>
      intro c buf' hc
      simp only [Request.exec, Request.learn, FsState.write, Fs.blockWrite] at hc ⊢
      split at hc
      · next hb =>
          rw [if_pos hb]
          exact h c buf' hc
      · next hb =>
          rw [if_neg hb]
          by_cases hcb : c = b
          · subst hcb
            rw [Function.update_self] at hc ⊢
            exact Option.some.inj hc
          · rw [Function.update_of_ne hcb] at hc ⊢
            exact h c buf' hc
  | offset fd => exact h
  | advance fd n => exact h
  | «open» ino =>
      intro c buf' hc
      have hdisk : ((Request.open ino).exec s).2.fs.disk = s.fs.disk := by
        simp only [Request.exec]
        split
        · rfl
        · rfl
      rw [hdisk]
      exact h c buf' hc
  | close fd => exact h

/-- What has been recorded stays in the log. -/
theorem exec_log (r : Request) (s : Shared) : s.log <:+ (r.exec s).2.log := by
  cases r with
  | write b buf notes => exact List.suffix_append notes s.log
  | «open» ino =>
      simp only [Request.exec]
      split
      · exact List.suffix_rfl
      · exact List.suffix_rfl
  | _ => exact List.suffix_rfl

theorem run_log {α : Type} (p : FsProg α) (s : Shared) : s.log <:+ (machine.run p s).2.log := by
  induction p generalizing s with
  | ret a => exact List.suffix_rfl
  | act r rest ih => exact (exec_log r s).trans (ih _ _)

/-- A call that is not switched out makes its requests in an orderly way. -/
theorem Current.reach {p : FsProg Int} {s : Calls} {t : Nat} {seen : Seen}
    (h : Current s.shared seen) (hthread : s.thread t = some (p, seen))
    (hkeeps : ∀ ino, .freedInode ino ∉ (machine.run p s.shared).2.log) :
    Reach callTurn Orderly s
      ⟨(machine.run p s.shared).2, Function.update s.thread t none⟩ := by
  induction p generalizing s seen with
  | ret a =>
      refine .step .refl (a := .resume t) ?_ ?_
      · intro r rest seen' hact
        rw [hthread] at hact
        cases hact
      · simp [callTurn, Machine.turn, hthread, Machine.run]
  | act r rest ih =>
      -- the state after the next request of the call
      let s₁ : Calls := ⟨(r.exec s.shared).2, Function.update s.thread t
        (some (rest (r.exec s.shared).1, r.learn (r.exec s.shared).1 seen))⟩
      have hturn : callTurn s (.resume t) = some s₁ := by
        simp only [callTurn, Machine.turn, hthread]
        rfl
      have hok : Orderly s (.resume t) := by
        intro r' rest' seen' hact
        rw [hthread] at hact
        cases hact
        constructor
        · cases r with
          | write b buf notes => exact fun _ => h b
          | _ => trivial
        · cases r with
          | write b buf notes =>
              intro ino hmem
              have hlog := run_log (rest ()) (Request.exec (.write b buf notes) s.shared).2
              exact hkeeps ino (hlog.subset (List.mem_append_left _ hmem))
          | _ => trivial
      have hrest := ih (r.exec s.shared).1 (s := s₁) (h.exec r) (Function.update_self _ _ _) hkeeps
      have hthreads : Function.update s₁.thread t none = Function.update s.thread t none :=
        Function.update_idem _ _ _
      rw [hthreads] at hrest
      exact (Reach.step .refl hok hturn).trans hrest

theorem callTurn_idle {s : Calls} {t : Nat} (hidle : s.thread t = none) (a : FsAct) :
    callTurn s (.call t a) = some { s with
      thread := Function.update s.thread t (some (fsCall s.shared.fs a, fun _ => none)) } := by
  simp only [callTurn, Machine.turn, hidle]

/-- A task that makes its call while no other task runs leaves what the call computes on its
own. -/
theorem reach_alone {s : Calls} {t : Nat} (hidle : s.thread t = none) {a : FsAct}
    (hok : CallOk s.shared a)
    (hkeeps : ∀ ino, .freedInode ino ∉ (machine.run (fsCall s.shared.fs a) s.shared).2.log) :
    Reach callTurn Orderly s ⟨(machine.run (fsCall s.shared.fs a) s.shared).2, s.thread⟩ := by
  let s₁ : Calls := { s with
    thread := Function.update s.thread t (some (fsCall s.shared.fs a, fun _ => none)) }
  have hturn : callTurn s (.call t a) = some s₁ := callTurn_idle hidle a
  have hcurrent : Current s₁.shared fun _ => none := by
    intro b buf hb
    cases hb
  have hcall := hcurrent.reach (Function.update_self _ _ _) hkeeps
  have hthreads : Function.update s₁.thread t none = s.thread := by
    rw [Function.update_idem, ← hidle, Function.update_eq_self]
  rw [hthreads] at hcall
  have horderly : Orderly s (.call t a) := hok
  exact (Reach.step .refl horderly hturn).trans hcall

def Note.isFreed : Note → Bool
  | .freedInode _ => true
  | _ => false

theorem freedInode_notMem {log : List Note} (h : (log.all fun n => !n.isFreed) = true) (ino : Nat) :
    .freedInode ino ∉ log :=
  fun hmem => Bool.noConfusion (List.all_eq_true.mp h _ hmem)

/-- A task calls `sfs_create`, another task makes a whole call, and the first goes on. -/
theorem reach_nested (s : FsState) (name name' : CStr)
    (h : ((machine.run (fsCall s (.create name'))
      (machine.run (fsCall s (.create name)) ⟨s, []⟩).2).2.log.all fun n => !n.isFreed) = true) :
    ∃ s' : Calls, Reach callTurn Orderly (.start s) s' ∧
      s'.shared = (machine.run (fsCall s (.create name'))
        (machine.run (fsCall s (.create name)) ⟨s, []⟩).2).2 := by
  have hkeeps := freedInode_notMem h
  let s₁ : Calls := ⟨⟨s, []⟩, Function.update (fun _ => none) 0
    (some (fsCall s (.create name'), fun _ => none))⟩
  have hturn : callTurn (.start s) (.call 0 (.create name')) = some s₁ := callTurn_idle rfl _
  have hok : Orderly (.start s) (.call 0 (.create name')) := trivial
  have hcall : Reach callTurn Orderly (.start s) s₁ := .step .refl hok hturn
  have hinside := reach_alone (s := s₁) (t := 1) rfl (a := .create name) trivial fun ino hmem =>
    hkeeps ino ((run_log _ _).subset hmem)
  have hcurrent : Current (machine.run (fsCall s (.create name)) ⟨s, []⟩).2 fun _ => none := by
    intro b buf hb
    cases hb
  have hend := hcurrent.reach
    (s := ⟨(machine.run (fsCall s (.create name)) ⟨s, []⟩).2, s₁.thread⟩) (t := 0) rfl hkeeps
  exact ⟨_, (hcall.trans hinside).trans hend, rfl⟩

/-- Whatever the tasks call and however the timer switches them, an orderly run keeps what the
calls have taken apart. -/
theorem calls_apart {s₀ : FsState} {s : Calls}
    (h : Reach callTurn Orderly (.start (fsBoot s₀)) s) : Apart s.shared := by
  have hreach := h.mono fun _ _ hok => okTurn_of_orderly hok
  have hstart : protocol.Guarded (Calls.start (fsBoot s₀)) :=
    ⟨bootOwners, sharedOk_boot s₀, fun _ _ _ hthread => by cases hthread⟩
  have hguarded := Protocol.Guarded.reach hreach hstart
    fun _ _ _ _ hinv hok => safe_fsCall hinv hok
  obtain ⟨o, hinv, -⟩ := hguarded
  exact hinv.apart

theorem calls_apart_nested :
    ∃ s : Calls, Reach callTurn Orderly (.start (fsBoot .blank)) s ∧
      inodesTaken s.shared.log = [3, 2] ∧ Apart s.shared := by
  have hlog : ((machine.run (fsCall (fsBoot .blank) (.create ⟨[0x61], by decide⟩))
      (machine.run (fsCall (fsBoot .blank) (.create ⟨[0x62], by decide⟩))
        ⟨fsBoot .blank, []⟩).2).2.log.all fun n => !n.isFreed) = true := by
    decide +kernel
  have htaken : inodesTaken (machine.run (fsCall (fsBoot .blank) (.create ⟨[0x61], by decide⟩))
      (machine.run (fsCall (fsBoot .blank) (.create ⟨[0x62], by decide⟩))
        ⟨fsBoot .blank, []⟩).2).2.log = [3, 2] := by
    decide +kernel
  obtain ⟨s, hreach, hshared⟩ := reach_nested _ _ _ hlog
  exact ⟨s, hreach, by rw [hshared, htaken], calls_apart hreach⟩

/-- The runs of `SYS_FS_CREATE` and `SYS_FS_WRITE` in which no inode is given back. -/
def CreatesAndWrites (s : Calls) : Turn FsAct → Prop
  | .call _ (.create _) => True
  | .call _ (.write _ _ _) => True
  | .call _ _ => False
  | .resume t => ∀ r rest seen, s.thread t = some (.act r rest, seen) → KeepsInodes r

/-- `CreatesAndWrites` as a test. -/
def createsAndWritesTest (s : Calls) : Turn FsAct → Bool
  | .call _ (.create _) => true
  | .call _ (.write _ _ _) => true
  | .call _ _ => false
  | .resume t =>
      match s.thread t with
      | some (.act (.write _ _ notes) _, _) => notes.all fun n => !n.isFreed
      | _ => true

theorem createsAndWrites_of_test {s : Calls} {turn : Turn FsAct}
    (h : createsAndWritesTest s turn = true) : CreatesAndWrites s turn := by
  cases turn with
  | call t a =>
      cases a with
      | create name => trivial
      | write fd buf count => trivial
      | «open» path => exact Bool.noConfusion h
      | read fd buf count => exact Bool.noConfusion h
      | close fd => exact Bool.noConfusion h
  | resume t =>
      intro r rest seen hthread
      cases r with
      | write b buf notes =>
          intro ino hmem
          simp only [createsAndWritesTest, hthread, List.all_eq_true] at h
          exact Bool.noConfusion (h _ hmem)
      | _ => trivial

/-- Two tasks create a file each. The first is switched out when it has read the inode bitmap,
and the second when it has read the bitmap too. -/
def twoCreates : List (Turn FsAct) :=
  [.call 0 (.create ⟨[0x61], by decide⟩), .resume 0, .resume 0, .resume 0, .resume 0,
    .call 1 (.create ⟨[0x62], by decide⟩), .resume 1, .resume 1, .resume 1, .resume 1,
    .resume 0, .resume 1]

/-- Both calls of `sfs_alloc_inode` return 2. -/
theorem not_calls_apart :
    ¬∀ (s₀ : FsState) (s : Calls),
      Reach callTurn CreatesAndWrites (.start (fsBoot s₀)) s → Apart s.shared := by
  intro hall
  have hrun : ((some (Calls.start (fsBoot .blank))).bind
      (runList callTurn createsAndWritesTest twoCreates)).any
        (fun s => inodesTaken s.shared.log == [2, 2]) = true := by
    decide +kernel
  obtain ⟨s₁, s, hs₁, hreach, htaken⟩ := Reach.exists_of_runList hrun
  rw [← Option.some.inj hs₁] at hreach
  have hapart := hall .blank s (hreach.mono fun _ _ => createsAndWrites_of_test)
  have hnodup := hapart.inodes
  rw [beq_iff_eq.mp htaken] at hnodup
  exact absurd hnodup (by decide)

end SRos.Fs.Requests
