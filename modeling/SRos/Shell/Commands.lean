import SRos.Fs.Reopen
import SRos.Shell.Hex
import SRos.Shell.Model

/-!
# The commands on files (`src/user/shell.c`)

`cat`, `touch` and `write` with the file system calls that they make, where no other task makes one
in between. `cat` reads 255 bytes at a time and prints each part up to its first NUL. What `write`
has stored is what `cat` prints.
-/

namespace SRos.Shell

open Fs

/-- The path that `cmd_cat` and `cmd_write` build in 64 bytes. -/
def pathOf (name : CStr) : Option CStr := do
  let name ← SRos.strcpy 63 name
  return ⟨47 :: name.bytes, by simp [name.noNul]⟩

/-- `Usage: cat <filename>`. -/
def usageCat : List UInt8 :=
  [85, 115, 97, 103, 101, 58, 32, 99, 97, 116, 32, 60, 102, 105, 108, 101, 110, 97, 109, 101, 62,
    10]

/-- `File not found: ` and the name. -/
def notFound (name : CStr) : List UInt8 :=
  [70, 105, 108, 101, 32, 110, 111, 116, 32, 102, 111, 117, 110, 100, 58, 32] ++ name.bytes ++ [10]

/-- The loop of `cmd_cat`. -/
def catLoop : Nat → FsState → Int → Buf → Option (FsState × List UInt8)
  | 0, _, _, _ => none
  | fuel + 1, s, fd, buf =>
      let (s, buf, n) := sysRead s fd buf 255
      if n > 0 then do
        let buf := Function.update buf n.toNat 0
        let (s, output) ← catLoop fuel s fd buf
        return (s, puts ((List.range 256).map buf) ++ output)
      else some (s, [])

/-- `cmd_cat` with its arguments and what the stack holds in `buf`. -/
def cmdCat (fuel : Nat) (buf : Buf) (s : FsState) : List CStr → Option (FsState × List UInt8)
  | [] => some (s, usageCat)
  | name :: _ => do
      let path ← pathOf name
      let (s, fd) := sysOpen s (some path)
      if fd < 0 then return (s, notFound name)
      let (s, output) ← catLoop fuel s fd buf
      return (sysClose s fd, output ++ [10])

/-- `Usage: touch <filename>`. -/
def usageTouch : List UInt8 :=
  [85, 115, 97, 103, 101, 58, 32, 116, 111, 117, 99, 104, 32, 60, 102, 105, 108, 101, 110, 97, 109,
    101, 62, 10]

/-- `Created: ` and the name. -/
def created (name : CStr) : List UInt8 :=
  [67, 114, 101, 97, 116, 101, 100, 58, 32] ++ name.bytes ++ [10]

/-- `Failed: ` and the name. -/
def failed (name : CStr) : List UInt8 :=
  [70, 97, 105, 108, 101, 100, 58, 32] ++ name.bytes ++ [10]

def cmdTouch (s : FsState) : List CStr → FsState × List UInt8
  | [] => (s, usageTouch)
  | name :: _ =>
      let (s, r) := fsCall s (.create name)
      (s, if r = 0 then created name else failed name)

/-- `Usage: write <filename> <text>`. -/
def usageWrite : List UInt8 :=
  [85, 115, 97, 103, 101, 58, 32, 119, 114, 105, 116, 101, 32, 60, 102, 105, 108, 101, 110, 97, 109,
    101, 62, 32, 60, 116, 101, 120, 116, 62, 10]

/-- `Cannot open: ` and the name. -/
def cannotOpen (name : CStr) : List UInt8 :=
  [67, 97, 110, 110, 111, 116, 32, 111, 112, 101, 110, 58, 32] ++ name.bytes ++ [10]

/-- `Written to: ` and the name. -/
def written (name : CStr) : List UInt8 :=
  [87, 114, 105, 116, 116, 101, 110, 32, 116, 111, 58, 32] ++ name.bytes ++ [10]

def cmdWrite (s : FsState) : List CStr → Option (FsState × List UInt8)
  | name :: content :: _ => do
      let (s, _) := fsCall s (.create name)
      let path ← pathOf name
      let (s, fd) := sysOpen s (some path)
      if fd < 0 then return (s, cannotOpen name)
      let (s, _) := sysWrite s fd (fun i => content.bytes.getD i 0) content.bytes.length
      return (sysClose s fd, written name)
  | _ => some (s, usageWrite)

/-- What `cat` prints of a file: each 255 bytes up to their first NUL. -/
def shown (c : List UInt8) : List UInt8 :=
  (List.range (c.length / 255 + 1)).flatMap fun k => puts ((c.drop (255 * k)).take 255)

/-- The path leads to the file with the inode `i` and these contents. -/
def LeadsTo (s : FsState) (path : CStr) (i : Nat) (c : List UInt8) : Prop :=
  (openFile (sysOpen s (some path)).1 (sysOpen s (some path)).2).map File.ino = some i ∧
    (abstraction s).content i = some c

/-! ## What is printed -/

variable {s s' s₀ : FsState} {f : File} {name path content : CStr} {i : Nat} {c : List UInt8}

theorem puts_eq_self {str : List UInt8} (h : (0 : UInt8) ∉ str) : puts str = str := by
  unfold puts
  rw [List.takeWhile_eq_self_iff]
  intro c hc
  have hne : c ≠ 0 := by
    rintro rfl
    exact h hc
  simpa using hne

/-- A NUL ends the string, whatever is behind it. -/
theorem puts_update (buf : Buf) {n : Nat} (hn : n < 256) :
    puts ((List.range 256).map (Function.update buf n 0)) = puts ((List.range n).map buf) := by
  obtain ⟨rest, hrange⟩ : ∃ rest, List.range 256 = List.range n ++ n :: rest := by
    rw [show 256 = n + (255 - n + 1) by omega, List.range_add, List.range_succ_eq_map,
      List.map_cons, Nat.add_zero]
    exact ⟨_, rfl⟩
  have hbefore : (List.range n).map (Function.update buf n 0) = (List.range n).map buf := by
    apply List.map_congr_left
    intro i hi
    exact Function.update_of_ne (List.mem_range.mp hi).ne _ _
  unfold puts
  rw [hrange, List.map_append, List.map_cons, hbefore, Function.update_self]
  induction (List.range n).map buf with
  | nil => rfl
  | cons c cs ih =>
      rw [List.cons_append, List.takeWhile_cons, List.takeWhile_cons, ih]

@[simp] theorem shown_nil : shown [] = [] := rfl

/-- The first 255 bytes and the others. -/
theorem shown_step (c : List UInt8) : shown c = puts (c.take 255) ++ shown (c.drop 255) := by
  by_cases hlen : c.length < 255
  · have hzero : c.length / 255 = 0 := Nat.div_eq_of_lt hlen
    rw [List.drop_of_length_le (by omega), shown_nil]
    simp [shown, hzero]
  · have hsucc : c.length / 255 = (c.length - 255) / 255 + 1 := by omega
    unfold shown
    rw [hsucc, List.range_succ_eq_map, List.flatMap_cons, List.length_drop, List.flatMap_map]
    simp only [Nat.mul_zero, List.drop_zero, List.drop_drop, Nat.mul_succ, Nat.add_comm]

/-- A file without a NUL is shown as it is. -/
theorem shown_eq_self {c : List UInt8} (h : (0 : UInt8) ∉ c) : shown c = c := by
  induction hlen : c.length using Nat.strong_induction_on generalizing c with
  | _ len ih =>
      by_cases hnil : c = []
      · rw [hnil, shown_nil]
      · have hpos := List.length_pos_of_ne_nil hnil
        rw [shown_step, puts_eq_self fun hc => h (List.mem_of_mem_take hc),
          ih (c.length - 255) (by omega) (fun hc => h (List.mem_of_mem_drop hc)) (by simp),
          List.take_append_drop]

/-! ## Reading -/

/-- The loop prints the rest of the file and leaves the position at its end. -/
theorem catLoop_eq (h : Running s₀ s) {fd fuel : Nat} (hf : openFile s fd = some f)
    (hc : (abstraction s).content f.ino = some c) (buf : Buf)
    (hfuel : c.length - f.offset < fuel) :
    catLoop fuel s fd buf =
        some (s.setFile fd { f with offset := c.length }, shown (c.drop f.offset)) ∧
      Running s₀ (s.setFile fd { f with offset := c.length }) := by
  induction fuel generalizing s f buf with
  | zero => omega
  | succ fuel ih =>
      have hinv := h.dataInv
      obtain ⟨n, buf', heq, hoffset, hn, hbytes⟩ :=
        hinv.read_part hf hc buf (show 255 < 2 ^ 31 by decide)
      obtain ⟨hfd, -, huse⟩ := openFile_some hf
      rw [Int.toNat_natCast] at hfd
      have hok : dataOk s (.read fd buf 255) := ⟨hinv.notDir hf hc, by decide, by decide⟩
      have hnext : Running s₀ (sysRead s fd buf 255).1 := h.call hok
      unfold catLoop
      have heq' : sysRead s fd buf 255 = _ := heq
      rw [heq'] at hnext ⊢
      simp only
      by_cases hend : n = 0
      · rw [show f.offset + n = c.length by omega] at hnext ⊢
        rw [if_neg (by omega), List.drop_of_length_le (by omega), shown_nil]
        exact ⟨rfl, hnext⟩
      · obtain ⟨hrest, hend⟩ := ih hnext (Kept.openFile_setFile _ hfd huse) hc
          (Function.update buf' n 0) (by
            simp only
            omega)
        rw [setFile_setFile] at hrest hend
        rw [if_pos (by omega), Int.toNat_natCast, hrest]
        have hdrop : (c.drop f.offset).drop 255 = c.drop (f.offset + n) := by
          rw [List.drop_drop]
          by_cases hfull : n = 255
          · rw [hfull]
          · rw [List.drop_of_length_le (by omega), List.drop_of_length_le (by omega)]
        rw [shown_step (c.drop f.offset), hdrop, ← hbytes, ← puts_update buf' (by omega)]
        exact ⟨rfl, hend⟩

/-- What `sys_open` has done with a path that leads to a file. -/
theorem LeadsTo.opened (h : LeadsTo s path i c) (hinv : DataInv s) :
    ∃ (fd : Nat) (f : File), sysOpen s (some path) = (s.setFile fd f, (fd : Int)) ∧ fd < maxFiles ∧
      (s.files fd).inUse = false ∧ f.ino = i ∧ f.inUse = true ∧ f.offset = 0 := by
  obtain ⟨hopen, -⟩ := h
  rcases hinv.inv.sysOpen_cases (some path) with heq | ⟨fd, ino, heq, hfd, hfree, -⟩
  · rw [heq] at hopen
    cases hopen
  · rw [heq, Kept.openFile_setFile _ hfd rfl] at hopen
    exact ⟨fd, _, heq, hfd, hfree, Option.some.inj hopen, rfl, rfl⟩

theorem cmdCat_failed (h : DataInv s) (hpath : pathOf name = some path)
    (hneg : (sysOpen s (some path)).2 < 0) (args : List CStr) (buf : Buf) (fuel : Nat) :
    cmdCat fuel buf s (name :: args) = some (s, notFound name) := by
  rcases h.inv.sysOpen_cases (some path) with heq | ⟨fd, ino, heq, -⟩
  · simp [cmdCat, hpath, heq]
  · rw [heq] at hneg
    exact absurd hneg (by simp)

/-- `cat` on a file. -/
theorem cmdCat_eq (h : Running s₀ s) (hpath : pathOf name = some path)
    (hfile : LeadsTo s path i c) (args : List CStr) (buf : Buf) :
    ∃ s', Running s₀ s' ∧ s'.disk = s.disk ∧ abstraction s' = abstraction s ∧
      ∀ fuel, c.length < fuel → cmdCat fuel buf s (name :: args) = some (s', shown c ++ [10]) := by
  obtain ⟨fd, f, heq, hfd, hfree, rfl, huse, hstart⟩ := hfile.opened h.dataInv
  have hopened : Running s₀ (sysOpen s (some path)).1 :=
    h.call (show dataOk s (.open (some path)) from trivial)
  rw [heq] at hopened
  have hloop : ∀ fuel, c.length < fuel → _ := fun fuel hfuel =>
    catLoop_eq hopened (Kept.openFile_setFile s hfd huse) hfile.2 buf
      (show c.length - f.offset < fuel by omega)
  rw [hstart, List.drop_zero, setFile_setFile] at hloop
  have hclose : sysClose (s.setFile fd { f with offset := c.length }) fd =
      s.setFile fd { f with offset := c.length, inUse := false } := by
    unfold sysClose
    rw [if_neg (by omega), Int.toNat_natCast, setFile_same, setFile_setFile]
  have hclosed : Running s₀ (sysClose (s.setFile fd { f with offset := c.length }) fd) :=
    (hloop _ (Nat.lt_succ_self _)).2.call (show dataOk _ (.close fd) from trivial)
  rw [hclose] at hclosed
  refine ⟨_, hclosed, rfl, abstraction_closed hfd hfree rfl, fun fuel hfuel => ?_⟩
  simp [cmdCat, hpath, heq, (hloop fuel hfuel).1, hclose]

/-! ## Writing -/

/-- `touch` makes an empty file, or it prints that it failed and changes no file. -/
theorem cmdTouch_eq (h : Running s₀ s) (name : CStr) (args : List CStr) :
    ∃ s', Running s₀ s' ∧
      ((∃ i, cmdTouch s (name :: args) = (s', created name) ∧ (abstraction s).content i = none ∧
          abstraction s' = (abstraction s).setContent i []) ∨
        cmdTouch s (name :: args) = (s', failed name) ∧ abstraction s' = abstraction s) := by
  have hstep := (h.dataInv.create name).2
  refine ⟨(fsCall s (.create name)).1, h.call (show dataOk s (.create name) from trivial), ?_⟩
  have htouch : cmdTouch s (name :: args) = ((fsCall s (.create name)).1,
    if (fsCall s (.create name)).2 = 0 then created name else failed name) := rfl
  rw [htouch]
  rcases hstep.create_cases with ⟨hr, hsame⟩ | ⟨i, hr, hnew, hset⟩
  · right
    rw [hr, if_neg (by decide)]
    exact ⟨rfl, hsame⟩
  · left
    rw [hr, if_pos rfl]
    exact ⟨i, rfl, hnew, hset⟩

theorem cmdWrite_failed (h : Running s₀ s) (hpath : pathOf name = some path)
    (hneg : (sysOpen (fsCall s (.create name)).1 (some path)).2 < 0) (args : List CStr) :
    cmdWrite s (name :: content :: args) =
      some ((fsCall s (.create name)).1, cannotOpen name) := by
  have hcreated := (h.call (show dataOk s (.create name) from trivial)).dataInv.inv
  rcases hcreated.sysOpen_cases (some path) with heq | ⟨fd, ino, heq, -⟩
  · simp [cmdWrite, hpath, heq]
  · rw [heq] at hneg
    exact absurd hneg (by simp)

/-- `write` on a path that leads to a file, and `cat` after it. -/
theorem cmdWrite_eq (h : Running s₀ s) (hpath : pathOf name = some path)
    (hlen : content.bytes.length < lineSize)
    (hfile : LeadsTo (fsCall s (.create name)).1 path i c) (args : List CStr) :
    ∃ s' n, Running s₀ s' ∧ cmdWrite s (name :: content :: args) = some (s', written name) ∧
      n ≤ content.bytes.length ∧ (n < content.bytes.length → NoRoom s' i) ∧
      abstraction s' = (abstraction (fsCall s (.create name)).1).setContent i
        (content.bytes.take n ++ c.drop n) ∧
      ∀ args' buf, ∃ s'', Running s₀ s'' ∧ s''.disk = s'.disk ∧ abstraction s'' = abstraction s' ∧
        ∀ fuel, (content.bytes.take n ++ c.drop n).length < fuel →
          cmdCat fuel buf s' (name :: args') =
            some (s'', shown (content.bytes.take n ++ c.drop n) ++ [10]) := by
  have hcreated := h.call (show dataOk s (.create name) from trivial)
  obtain ⟨fd, f, hopen, hfd, hfree, rfl, huse, hstart⟩ := hfile.opened hcreated.dataInv
  have hmax : lineSize = 256 := rfl
  obtain ⟨s', n, hclose, hn, hshort, hrun, habs, hagain⟩ := hcreated.rewrite hopen hfd hfree
    huse hstart hfile.2 (content.bytes.getD · 0) (show content.bytes.length < 2 ^ 31 by omega)
  rw [AbsFs.overwrite_start c content.bytes hn] at habs
  refine ⟨s', n, hrun, ?_, hn, hshort, habs, fun args' buf => ?_⟩
  · simp only [cmdWrite, hpath, hopen, Option.bind_eq_bind, Option.bind_some]
    rw [if_neg (by omega), hclose]
    rfl
  · apply cmdCat_eq hrun hpath
    refine ⟨?_, ?_⟩
    · rw [hagain, Kept.openFile_setFile _ hfd huse]
      rfl
    · rw [habs]
      exact Function.update_self _ _ _

/-! ## Runs -/

/-- In every state that file system calls reach from `sfs_format` and `sfs_mount`: `cat` says that
there is no such file, or, on a file with any contents, prints its bytes, 255 at a time and each
part up to its first NUL, and a newline, so all of a file without a NUL. It changes neither the disk
nor a file nor an open descriptor. -/
theorem cat_shows (h : Running s₀ s) (hpath : pathOf name = some path) (args : List CStr)
    (buf : Buf) :
    ((sysOpen s (some path)).2 < 0 →
      ∀ fuel, cmdCat fuel buf s (name :: args) = some (s, notFound name)) ∧
    ∀ i c, LeadsTo s path i c → ((0 : UInt8) ∉ c → shown c = c) ∧
      ∃ s', Running s₀ s' ∧ s'.disk = s.disk ∧ abstraction s' = abstraction s ∧
        ∀ fuel, c.length < fuel →
          cmdCat fuel buf s (name :: args) = some (s', shown c ++ [10]) := by
  refine ⟨fun hneg fuel => cmdCat_failed h.dataInv hpath hneg args buf fuel, ?_⟩
  intro i c hfile
  exact ⟨shown_eq_self, cmdCat_eq h hpath hfile args buf⟩

theorem cat_shows_hi : ∃ s s', Running .blank s ∧
    cmdCat 3 zeros s [⟨[97], by decide⟩] = some (s', [104, 105, 10]) := by
  have hrun : ((some (fsBoot .blank)).bind (runList fsStep dataOkTest
      [.create ⟨[97], by decide⟩, .open (some ⟨[97], by decide⟩),
        .write 0 (([104, 105] : List UInt8).getD · 0) 2])).any
      (fun s => (openFile (sysOpen s (some ⟨[47, 97], by decide⟩)).1
          (sysOpen s (some ⟨[47, 97], by decide⟩)).2).map File.ino == some 2 &&
        (abstraction s).content 2 == some [104, 105]) = true := by
    decide +kernel
  obtain ⟨s₁, s, hs₁, hreach, htest⟩ := Reach.exists_of_runList hrun
  obtain rfl := Option.some.inj hs₁
  have hok := hreach.mono fun s a => dataOk_of_test
  simp only [Bool.and_eq_true, beq_iff_eq] at htest
  have hpath : pathOf ⟨[97], by decide⟩ = some ⟨[47, 97], by decide⟩ := rfl
  obtain ⟨-, s', -, -, -, hcat⟩ := (cat_shows hok hpath [] zeros).2 2 [104, 105] htest
  exact ⟨s, s', hok, hcat 3 (by decide)⟩

/-- In every such state, when the path of a `write` leads to a file after the call that creates it:
the command puts its text over the start of what the file held, as far as there is room, and leaves
every other file and descriptor as it was. A `cat` of the same name then prints the new contents,
the text itself when all of it fits and the file held no more. -/
theorem write_then_cat (h : Running s₀ s) (hpath : pathOf name = some path)
    (hlen : content.bytes.length < lineSize)
    (hfile : LeadsTo (fsCall s (.create name)).1 path i c) (args : List CStr) :
    c = ((abstraction s).content i).getD [] ∧
    ∃ s' n, Running s₀ s' ∧ cmdWrite s (name :: content :: args) = some (s', written name) ∧
      n ≤ content.bytes.length ∧ (n < content.bytes.length → NoRoom s' i) ∧
      abstraction s' = (abstraction (fsCall s (.create name)).1).setContent i
        (content.bytes.take n ++ c.drop n) ∧
      (n = content.bytes.length → c.length ≤ n →
        shown (content.bytes.take n ++ c.drop n) = content.bytes) ∧
      ∀ args' buf, ∃ s'', Running s₀ s'' ∧ s''.disk = s'.disk ∧ abstraction s'' = abstraction s' ∧
        ∀ fuel, (content.bytes.take n ++ c.drop n).length < fuel →
          cmdCat fuel buf s' (name :: args') =
            some (s'', shown (content.bytes.take n ++ c.drop n) ++ [10]) := by
  have hstep := (h.dataInv.create name).2
  obtain ⟨s', n, hrun, hwrite, hn, hshort, habs, hcat⟩ := cmdWrite_eq h hpath hlen hfile args
  refine ⟨hstep.create_content hfile.2, s', n, hrun, hwrite, hn, hshort, habs, ?_, hcat⟩
  rintro rfl hle
  rw [List.take_length, List.drop_of_length_le hle, List.append_nil, shown_eq_self content.noNul]

theorem write_then_cat_hi : ∃ s' n, n ≤ 2 ∧ (n < 2 → NoRoom s' 2) ∧
    cmdWrite (fsBoot .blank) [⟨[97], by decide⟩, ⟨[104, 105], by decide⟩] =
      some (s', written ⟨[97], by decide⟩) ∧
    ∃ s'', cmdCat 3 zeros s' [⟨[97], by decide⟩] =
      some (s'', shown (([104, 105] : List UInt8).take n) ++ [10]) := by
  have htest : ((openFile
      (sysOpen (fsCall (fsBoot .blank) (.create ⟨[97], by decide⟩)).1
        (some ⟨[47, 97], by decide⟩)).1
      (sysOpen (fsCall (fsBoot .blank) (.create ⟨[97], by decide⟩)).1
        (some ⟨[47, 97], by decide⟩)).2).map File.ino = some 2 ∧
      (abstraction (fsCall (fsBoot .blank) (.create ⟨[97], by decide⟩)).1).content 2 =
        some []) := by
    decide +kernel
  have hpath : pathOf ⟨[97], by decide⟩ = some ⟨[47, 97], by decide⟩ := rfl
  obtain ⟨-, s', n, -, hwrite, hn, hshort, -, -, hcat⟩ := write_then_cat .refl hpath
    (show (⟨[104, 105], by decide⟩ : CStr).bytes.length < lineSize by decide) htest []
  obtain ⟨s'', -, -, -, hshow⟩ := hcat [] zeros
  rw [List.drop_nil, List.append_nil] at hshow
  have hlen := List.length_take_le' n ([104, 105] : List UInt8)
  exact ⟨s', n, hn, hshort, hwrite, s'', hshow 3 (Nat.lt_succ_of_le hlen)⟩

end SRos.Shell
