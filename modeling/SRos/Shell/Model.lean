import Mathlib.Data.List.TakeWhile
import Mathlib.Logic.Function.Basic
import SRos.Kernel.Machine

/-!
# The line editor of the shell (`src/user/shell.c`)

`shell_main` as a step for each key. A string in a buffer is given by the bytes in front of its
NUL. A step has no result if `strcpy` leaves a buffer, or if the command does not return.
-/

namespace SRos.Shell

def lineSize : Nat := 256
def historyMax : Nat := 16

def keyUp : UInt8 := 0xE0
def keyDown : UInt8 := 0xE1
def keyLeft : UInt8 := 0xE2
def keyRight : UInt8 := 0xE3
def cursorLeft : UInt8 := 0x01
def cursorRight : UInt8 := 0x02

abbrev Buffer := Nat → UInt8

/-- The variables of `shell_main` and of the history, and what has been printed. -/
structure Editor where
  line : Buffer
  pos : Nat
  lineLen : Nat
  savedLine : Buffer
  savedPos : Nat
  historyIndex : Int
  history : List CStr
  output : List UInt8

/-- The string in a buffer, if it ends there. -/
def stringIn (b : Buffer) : Option CStr :=
  let bytes := (List.range lineSize).map b
  if 0 ∈ bytes then
    some ⟨bytes.takeWhile (· ≠ 0), fun h => by simpa using List.mem_takeWhile_imp h⟩
  else none

def strcpy (dest : Buffer) (src : CStr) : Option Buffer :=
  if src.bytes.length < lineSize then
    some fun i =>
      if i < src.bytes.length then src.bytes.getD i 0
      else if i = src.bytes.length then 0 else dest i
  else none

def historyAdd (history : List CStr) (cmd : CStr) : List CStr :=
  if cmd.bytes.length = 0 then history
  else if history.getLast? = some cmd then history
  else if history.length ≥ historyMax then history.tail ++ [cmd]
  else history ++ [cmd]

def Editor.print (s : Editor) (bs : List UInt8) : Editor := { s with output := s.output ++ bs }

def clearInput (len : Nat) (s : Editor) : Editor := s.print (List.replicate len 8)

/-- The prompt `SRos> `. -/
def prompt : List UInt8 := [83, 82, 111, 115, 62, 32]

/-- What Enter passes to `history_add` and `execute`. -/
def entered (s : Editor) : Option CStr := stringIn (Function.update s.line s.pos 0)

/-- Enter. `execute` is what the command leaves in the buffer of its line. -/
def enter (execute : Buffer → Option Buffer) (s : Editor) : Option Editor := do
  let s := s.print [10]
  let cmd ← entered s
  let history := historyAdd s.history cmd
  let line ← execute (Function.update s.line s.pos 0)
  return { s with line, history, pos := 0, lineLen := 0, historyIndex := -1 }.print prompt

def backspace (s : Editor) : Editor :=
  if s.pos > 0 then
    let pos := s.pos - 1
    let lineLen := s.lineLen - 1
    let s := s.print [8]
    let line := (List.range' pos (lineLen - pos)).foldl
      (fun line i => Function.update line i (line (i + 1))) s.line
    let line := Function.update line lineLen 0
    let s := s.print ((List.range' pos (lineLen - pos)).map line ++ [32])
    { s with line, pos, lineLen }.print (List.replicate (lineLen + 1 - pos) cursorLeft)
  else s

/-- Shows a string in place of the input. -/
def showEntry (s : Editor) (entry : CStr) : Option Editor := do
  let s := clearInput s.pos s
  let line ← strcpy s.line entry
  let pos := entry.bytes.length
  return { s with line, pos, lineLen := pos }.print entry.bytes

/-- The entry of the history that an index counts from the newest one. -/
def historyEntry (s : Editor) (index : Int) : Option CStr :=
  s.history[(s.history.length - 1 - index).toNat]?

/-- The part of the branch of `KEY_UP` that saves the input before the newest entry is shown. -/
def saveInput (s : Editor) : Option Editor :=
  if s.historyIndex = -1 then do
    let saved ← stringIn s.line
    let savedLine ← strcpy s.savedLine saved
    return { s with savedLine, savedPos := s.pos }
  else some s

def up (s : Editor) : Option Editor :=
  if s.history.length = 0 then some s
  else do
    let s ← saveInput s
    if s.historyIndex < s.history.length - 1 then
      let s := { s with historyIndex := s.historyIndex + 1 }
      let entry ← historyEntry s s.historyIndex
      showEntry s entry
    else return s

def down (s : Editor) : Option Editor :=
  if s.historyIndex = -1 then some s
  else if s.historyIndex > 0 then do
    let s := { s with historyIndex := s.historyIndex - 1 }
    let entry ← historyEntry s s.historyIndex
    showEntry s entry
  else do
    let s := clearInput s.pos { s with historyIndex := -1 }
    let saved ← stringIn s.savedLine
    let line ← strcpy s.line saved
    return { s with line, pos := s.savedPos, lineLen := s.savedPos }.print saved.bytes

/-- One round of the loop of `shell_main`. -/
def key (execute : Buffer → Option Buffer) (s : Editor) (c : UInt8) : Option Editor :=
  if c = 10 then enter execute s
  else if c = 8 then some (backspace s)
  else if c = keyUp then up s
  else if c = keyDown then down s
  else if c = keyLeft then
    some (if s.pos > 0 then { s with pos := s.pos - 1 }.print [cursorLeft] else s)
  else if c = keyRight then
    some (if s.pos < s.lineLen then { s with pos := s.pos + 1 }.print [cursorRight] else s)
  else if s.pos < 255 then
    let line := Function.update s.line s.pos c
    let pos := s.pos + 1
    some ({ s with line, pos, lineLen := if pos > s.lineLen then pos else s.lineLen }.print [c])
  else some s

/-- The start of `shell_main`, with what the stack holds in `line`. -/
def start (stack : Buffer) : Editor :=
  { line := stack, pos := 0, lineLen := 0, savedLine := fun _ => 0, savedPos := 0
    historyIndex := -1, history := [], output := prompt }

end SRos.Shell
