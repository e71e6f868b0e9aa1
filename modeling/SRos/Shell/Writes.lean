import SRos.Kernel.Strings
import SRos.Lib.Traced
import SRos.Shell.Tokens

/-!
# The stores of the shell (`src/user/shell.c`)

`shell_main`, `history_add`, `parse_command` and the commands that build a path, once more with
every store in an array. Behind a store that is outside of its array nothing is known any more: the
computation ends there.
-/

namespace SRos.Shell.Writes

open Traced (step attempt)

/-- The arrays. -/
inductive Target
  | line
  | savedLine
  | history (row : Nat)
  | argv
  | path
  | buf
  deriving DecidableEq

def Target.size : Target → Nat
  | .line => lineSize
  | .savedLine => lineSize
  | .history row => if row < historyMax then lineSize else 0
  | .argv => 16
  | .path => 64
  | .buf => 256

/-- A store in an array. -/
structure Write where
  target : Target
  index : Nat
  deriving DecidableEq

def Write.Inside (w : Write) : Prop := w.index < w.target.size

def store (t : Target) (i : Nat) : OptionT (Traced Write) Unit :=
  step ⟨t, i⟩ (if i < t.size then some () else none)

/-- `b[i] = c`. -/
def assign (t : Target) (b : Buffer) (i : Nat) (c : UInt8) : OptionT (Traced Write) Buffer := do
  store t i
  return Function.update b i c

/-- The loop of `strcpy(dest + offset, src)`, for `fuel` rounds. -/
def strcpyLoop (t : Target) (offset : Nat) (src : Buffer) :
    Nat → Nat → Buffer → OptionT (Traced Write) Buffer
  | 0, _, _ => attempt none
  | fuel + 1, i, dest => do
      let dest ← assign t dest (offset + i) (src i)
      if src i = 0 then return dest
      else strcpyLoop t offset src fuel (i + 1) dest

/-- `strcpy`. More rounds than the array has bytes are never needed. -/
def strcpy (t : Target) (offset : Nat) (dest src : Buffer) : OptionT (Traced Write) Buffer :=
  strcpyLoop t offset src (t.size + 1) 0 dest

/-- The memory from a string on. -/
def text (s : CStr) : Buffer := fun i => s.bytes.getD i 0

/-! ## The history -/

/-- `strcpy(history[row], src)`. The row is given by its string. -/
def storeRow (row : Nat) (src : CStr) : OptionT (Traced Write) Unit := do
  let _ ← strcpy (.history row) 0 (fun _ => 0) (text src)

/-- The loop that drops the oldest row. -/
def shiftRows (history : List CStr) : OptionT (Traced Write) Unit :=
  (List.range' 1 (historyMax - 1)).foldlM (fun _ i => do
    let src ← attempt history[i]?
    storeRow (i - 1) src) ()

def historyAdd (history : List CStr) (cmd : CStr) : OptionT (Traced Write) (List CStr) :=
  if cmd.bytes.length = 0 then return history
  else if history.getLast? = some cmd then return history
  else if history.length ≥ historyMax then do
    shiftRows history
    storeRow (historyMax - 1) cmd
    return history.tail ++ [cmd]
  else do
    storeRow history.length cmd
    return history ++ [cmd]

/-! ## The commands -/

/-- What the commands depend on: `fs_open` finds the file, the values of `fs_read(fd, buf, 255)` up
to the first that is not positive, and whether the command comes back. -/
structure Outcome where
  found : Bool
  reads : List (Fin 256)
  returns : Bool

def parseLoop (maxArgs : Nat) : Nat → Nat → Parse → OptionT (Traced Write) Parse
  | 0, _, _ => attempt none
  | fuel + 1, p, s =>
      if s.line p = 0 then return s
      else do
        let p ← attempt (scan isSpace s.line (fuel + 1) p)
        if s.line p = 0 then return s
        else if s.argv.length ≥ maxArgs then return s
        else
          store .argv s.argv.length
          let s := s.arg p
          let p ← attempt (scan isWord s.line (fuel + 1) p)
          if s.line p ≠ 0 then
            store .line p
            parseLoop maxArgs fuel (p + 1) (s.cut p)
          else parseLoop maxArgs fuel p s

/-- `parse_command` on the line of `shell_main`. -/
def parseCommand (line : Buffer) (maxArgs : Nat) : OptionT (Traced Write) Parse :=
  parseLoop maxArgs (lineSize + 1) 0 { line, argv := [], stores := [] }

/-- The memory from `argv[i]` on. -/
def arg (s : Parse) (i : Nat) : Buffer := fun j => s.line (s.argv.getD i 0 + j)

/-- The path in `cmd_cat`, `cmd_write` and `cmd_exec`. -/
def buildPath (s : Parse) : OptionT (Traced Write) Unit := do
  let path ← assign .path (fun _ => 0) 0 47
  let path ← assign .path path 1 0
  let _ ← strcpy .path 1 path (arg s 1)

def cmdCat (o : Outcome) (s : Parse) : OptionT (Traced Write) Unit :=
  if s.argv.length < 2 then return
  else do
    buildPath s
    if o.found then o.reads.foldlM (fun _ (n : Fin 256) => store .buf n) () else return

def cmdWrite (s : Parse) : OptionT (Traced Write) Unit :=
  if s.argv.length < 3 then return else buildPath s

def cmdExec (o : Outcome) (s : Parse) : OptionT (Traced Write) Unit :=
  if s.argv.length < 2 then return
  else do
    buildPath s
    attempt (if o.returns then some () else none)

def catName : List UInt8 := [99, 97, 116]
def writeName : List UInt8 := [119, 114, 105, 116, 101]
def execName : List UInt8 := [101, 120, 101, 99]

/-- The branches of `execute`. The commands that have no array for a word are taken together. -/
def runCommand (o : Outcome) (s : Parse) (name : List UInt8) : OptionT (Traced Write) Unit :=
  if SRos.strcmp name catName = 0 then cmdCat o s
  else if SRos.strcmp name writeName = 0 then cmdWrite s
  else if SRos.strcmp name execName = 0 then cmdExec o s
  else attempt (if o.returns then some () else none)

/-- `execute`, with what is left in the buffer of the line. -/
def execute (o : Outcome) (line : Buffer) : OptionT (Traced Write) Buffer := do
  let s ← parseCommand line 16
  if s.argv.length = 0 then return s.line
  else
    let name ← attempt (stringIn (arg s 0))
    runCommand o s name.bytes
    return s.line

/-! ## The line editor -/

def enter (o : Outcome) (s : Editor) : OptionT (Traced Write) Editor := do
  let s := s.print [10]
  let line ← assign .line s.line s.pos 0
  let cmd ← attempt (stringIn line)
  let history ← historyAdd s.history cmd
  let line ← execute o line
  return { s with line, history, pos := 0, lineLen := 0, historyIndex := -1 }.print prompt

def backspace (s : Editor) : OptionT (Traced Write) Editor :=
  if s.pos > 0 then do
    let pos := s.pos - 1
    let lineLen := s.lineLen - 1
    let s := s.print [8]
    let line ← (List.range' pos (lineLen - pos)).foldlM
      (fun line i => assign .line line i (line (i + 1))) s.line
    let line ← assign .line line lineLen 0
    let s := s.print ((List.range' pos (lineLen - pos)).map line ++ [32])
    return { s with line, pos, lineLen }.print (List.replicate (lineLen + 1 - pos) cursorLeft)
  else return s

def showEntry (s : Editor) (entry : CStr) : OptionT (Traced Write) Editor := do
  let s := clearInput s.pos s
  let line ← strcpy .line 0 s.line (text entry)
  let pos := entry.bytes.length
  return { s with line, pos, lineLen := pos }.print entry.bytes

def saveInput (s : Editor) : OptionT (Traced Write) Editor :=
  if s.historyIndex = -1 then do
    let savedLine ← strcpy .savedLine 0 s.savedLine s.line
    return { s with savedLine, savedPos := s.pos }
  else return s

def up (s : Editor) : OptionT (Traced Write) Editor :=
  if s.history.length = 0 then return s
  else do
    let s ← saveInput s
    if s.historyIndex < s.history.length - 1 then
      let s := { s with historyIndex := s.historyIndex + 1 }
      let entry ← attempt (historyEntry s s.historyIndex)
      showEntry s entry
    else return s

def down (s : Editor) : OptionT (Traced Write) Editor :=
  if s.historyIndex = -1 then return s
  else if s.historyIndex > 0 then do
    let s := { s with historyIndex := s.historyIndex - 1 }
    let entry ← attempt (historyEntry s s.historyIndex)
    showEntry s entry
  else do
    let s := clearInput s.pos { s with historyIndex := -1 }
    let saved ← attempt (stringIn s.savedLine)
    let line ← strcpy .line 0 s.line s.savedLine
    return { s with line, pos := s.savedPos, lineLen := s.savedPos }.print saved.bytes

/-- One round of the loop of `shell_main`. -/
def key (o : Outcome) (s : Editor) (c : UInt8) : OptionT (Traced Write) Editor :=
  if c = 10 then enter o s
  else if c = 8 then backspace s
  else if c = keyUp then up s
  else if c = keyDown then down s
  else if c = keyLeft then
    return (if s.pos > 0 then { s with pos := s.pos - 1 }.print [cursorLeft] else s)
  else if c = keyRight then
    return (if s.pos < s.lineLen then { s with pos := s.pos + 1 }.print [cursorRight] else s)
  else if s.pos < 255 then do
    let line ← assign .line s.line s.pos c
    let pos := s.pos + 1
    return { s with line, pos, lineLen := if pos > s.lineLen then pos else s.lineLen }.print [c]
  else return s

end SRos.Shell.Writes
