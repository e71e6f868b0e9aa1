import SRos.Lib.Bytes

/-!
# Interrupts of a 32-bit x86 processor

The registers, the stack, and the instructions of an interrupt stub: a straight line of pushes,
moves and calls that ends with `iret`. What the called functions do is a parameter. Segments are
flat, faults and the reserved bits of `eflags` are left out.
-/

namespace SRos.X86

open Bytes

structure Cpu where
  eax : UInt32
  ecx : UInt32
  edx : UInt32
  ebx : UInt32
  esp : UInt32
  ebp : UInt32
  esi : UInt32
  edi : UInt32
  eip : UInt32
  eflags : UInt32
  cs : UInt16
  ss : UInt16
  ds : UInt16
  es : UInt16
  fs : UInt16
  gs : UInt16
  deriving DecidableEq

structure State where
  cpu : Cpu
  mem : Nat → UInt8

/-- The privilege level of a selector. -/
def rpl (selector : UInt16) : Nat := selector.toNat % 4

def Cpu.cpl (c : Cpu) : Nat := rpl c.cs

/-- The data segment registers that a stub saves. -/
inductive Seg
  | ds | es | fs | gs
  deriving DecidableEq

def Cpu.seg (c : Cpu) : Seg → UInt16
  | .ds => c.ds
  | .es => c.es
  | .fs => c.fs
  | .gs => c.gs

def Cpu.setSeg (c : Cpu) (v : UInt16) : Seg → Cpu
  | .ds => { c with ds := v }
  | .es => { c with es := v }
  | .fs => { c with fs := v }
  | .gs => { c with gs := v }

namespace State

def push (s : State) (v : UInt32) : State where
  cpu := { s.cpu with esp := s.cpu.esp - 4 }
  mem := store32 s.mem (s.cpu.esp - 4).toNat v.toNat

/-- The word on the top of the stack. -/
def top (s : State) : UInt32 := UInt32.ofNat (load32 s.mem s.cpu.esp.toNat)

/-- `add $n, %esp` -/
def drop (s : State) (n : UInt32) : State := { s with cpu := { s.cpu with esp := s.cpu.esp + n } }

def pusha (s : State) : State :=
  let c := s.cpu
  [c.eax, c.ecx, c.edx, c.ebx, c.esp, c.ebp, c.esi, c.edi].foldl push s

/-- `popa`, which skips the saved `esp`. -/
def popa (s : State) : State :=
  let edi := s.top
  let s := s.drop 4
  let esi := s.top
  let s := s.drop 4
  let ebp := s.top
  let s := s.drop 8
  let ebx := s.top
  let s := s.drop 4
  let edx := s.top
  let s := s.drop 4
  let ecx := s.top
  let s := s.drop 4
  let eax := s.top
  let s := s.drop 4
  { s with cpu := { s.cpu with
    eax := eax, ecx := ecx, edx := edx, ebx := ebx, ebp := ebp, esi := esi, edi := edi } }

/-- A segment register that is loaded with a more privileged segment is cleared on the way to the
privilege level `cpl`. `dpl` are the levels of the segments. -/
def validSeg (dpl : UInt16 → Nat) (cpl : Nat) (selector : UInt16) : UInt16 :=
  if dpl selector < cpl then 0 else selector

/-- `iret`. A return to an outer level also takes the stack of that level. -/
def iret (dpl : UInt16 → Nat) (s : State) : State :=
  let cpl := s.cpu.cpl
  let eip := s.top
  let s := s.drop 4
  let cs := s.top.toUInt16
  let s := s.drop 4
  let eflags := s.top
  let s := s.drop 4
  let s := { s with cpu := { s.cpu with eip := eip, cs := cs, eflags := eflags } }
  if rpl cs ≤ cpl then s
  else
    let esp := s.top
    let s := s.drop 4
    let ss := s.top.toUInt16
    { s with cpu := { s.cpu with
      esp := esp, ss := ss
      ds := validSeg dpl (rpl cs) s.cpu.ds, es := validSeg dpl (rpl cs) s.cpu.es
      fs := validSeg dpl (rpl cs) s.cpu.fs, gs := validSeg dpl (rpl cs) s.cpu.gs } }

end State

/-! ## Gates -/

/-- A gate of the interrupt descriptor table. -/
structure Gate where
  present : Bool
  dpl : Nat
  trap : Bool
  selector : UInt16
  offset : UInt32
  deriving DecidableEq

def flagTrap : UInt32 := 0x100
def flagInterrupt : UInt32 := 0x200

/-- An interrupt through a gate. From an outer level the stack is the one in the task state
segment. -/
def State.interrupt (g : Gate) (ss0 : UInt16) (esp0 : UInt32) (s : State) : State :=
  let c := s.cpu
  let s :=
    if rpl g.selector < c.cpl then
      ({ s with cpu := { c with ss := ss0, esp := esp0 } }.push c.ss.toUInt32).push c.esp
    else s
  let s := ((s.push c.eflags).push c.cs.toUInt32).push c.eip
  let eflags := c.eflags &&& ~~~flagTrap
  { s with cpu := { s.cpu with
    cs := g.selector, eip := g.offset
    eflags := if g.trap then eflags else eflags &&& ~~~flagInterrupt } }

/-! ## Stubs -/

inductive Instr (Fn : Type)
  | pushImm (v : UInt32)
  | pusha
  | pushSeg (r : Seg)
  | pushEsp
  | movAx (v : UInt16)
  | movSeg (r : Seg)
  | call (f : Fn)
  | addEsp (n : UInt32)
  | movEspEax
  | cli
  | popSeg (r : Seg)
  | popa
  | iret

variable {Fn E : Type}

/-- An instruction, with what lies outside the processor and its memory. A function that does not
return has no result. -/
def Instr.exec (dpl : UInt16 → Nat) (call : Fn → State × E → Option (State × E)) :
    Instr Fn → State × E → Option (State × E)
  | .pushImm v, (s, e) => some (s.push v, e)
  | .pusha, (s, e) => some (s.pusha, e)
  | .pushSeg r, (s, e) => some (s.push (s.cpu.seg r).toUInt32, e)
  | .pushEsp, (s, e) => some (s.push s.cpu.esp, e)
  | .movAx v, (s, e) =>
      some ({ s with cpu := { s.cpu with eax := (s.cpu.eax &&& 0xFFFF0000) ||| v.toUInt32 } }, e)
  | .movSeg r, (s, e) => some ({ s with cpu := s.cpu.setSeg s.cpu.eax.toUInt16 r }, e)
  | .call f, x => call f x
  | .addEsp n, (s, e) => some (s.drop n, e)
  | .movEspEax, (s, e) => some ({ s with cpu := { s.cpu with esp := s.cpu.eax } }, e)
  | .cli, (s, e) =>
      some ({ s with cpu := { s.cpu with eflags := s.cpu.eflags &&& ~~~flagInterrupt } }, e)
  | .popSeg r, (s, e) => some ({ s.drop 4 with cpu := (s.drop 4).cpu.setSeg s.top.toUInt16 r }, e)
  | .popa, (s, e) => some (s.popa, e)
  | .iret, (s, e) => some (s.iret dpl, e)

def run (dpl : UInt16 → Nat) (call : Fn → State × E → Option (State × E)) :
    List (Instr Fn) → State × E → Option (State × E)
  | [], x => some x
  | i :: is, x => (i.exec dpl call x).bind (run dpl call is)

variable {dpl : UInt16 → Nat} {call : Fn → State × E → Option (State × E)}

theorem run_append (is js : List (Instr Fn)) (x : State × E) :
    run dpl call (is ++ js) x = (run dpl call is x).bind (run dpl call js) := by
  induction is generalizing x with
  | nil => rfl
  | cons i is ih =>
      simp only [List.cons_append, run, Option.bind_assoc]
      congr 1
      funext y
      exact ih y

/-! ## Words on the stack -/

/-- The words from an address on. -/
def words (m : Nat → UInt8) (a n : Nat) : List Nat := (List.range n).map fun i => load32 m (a + 4 * i)

theorem words_succ (m : Nat → UInt8) (a n : Nat) :
    words m a (n + 1) = load32 m a :: words m (a + 4) n := by
  unfold words
  rw [List.range_succ_eq_map, List.map_cons, List.map_map]
  congr 1
  apply List.map_congr_left
  intro i _
  simp only [Function.comp_apply]
  congr 1
  omega

theorem words_congr {m m' : Nat → UInt8} {a n : Nat}
    (h : ∀ b, a ≤ b → b < a + 4 * n → m' b = m b) : words m' a n = words m a n := by
  apply List.map_congr_left
  intro i hi
  rw [List.mem_range] at hi
  apply load32_congr
  intro b hb hb'
  exact h b (by omega) (by omega)

theorem load32_of_words {m : Nat → UInt8} {a n k v : Nat} {ws : List Nat} (h : words m a n = ws)
    (hk : ws[k]? = some v) : load32 m (a + 4 * k) = v := by
  rw [← h, words, List.getElem?_map, Option.map_eq_some_iff] at hk
  obtain ⟨i, hi, rfl⟩ := hk
  obtain ⟨hlt, heq⟩ := List.getElem?_eq_some_iff.mp hi
  rw [List.getElem_range] at heq
  rw [heq]

/-- The stack after pushes: the last word lies on the top. -/
structure Pushed (ws : List UInt32) (s s' : State) : Prop where
  cpu : s'.cpu = { s.cpu with esp := s'.cpu.esp }
  esp : s'.cpu.esp.toNat + 4 * ws.length = s.cpu.esp.toNat
  words : ∀ n, X86.words s'.mem s'.cpu.esp.toNat (ws.length + n) =
    ws.reverse.map UInt32.toNat ++ X86.words s.mem s.cpu.esp.toNat n
  keep : ∀ a, a < s'.cpu.esp.toNat ∨ s.cpu.esp.toNat ≤ a → s'.mem a = s.mem a

namespace Pushed

variable {s s' s'' : State} {ws vs : List UInt32}

theorem nil (s : State) : Pushed [] s s := by
  refine ⟨rfl, rfl, ?_, fun _ _ => rfl⟩
  intro n
  rw [List.length_nil, Nat.zero_add]
  rfl

theorem push (h : Pushed ws s s') (v : UInt32) (hroom : 4 ≤ s'.cpu.esp.toNat) :
    Pushed (ws ++ [v]) s (s'.push v) := by
  have hesp : (s'.cpu.esp - 4).toNat + 4 = s'.cpu.esp.toNat := by
    rw [UInt32.toNat_sub_of_le _ _ (by rw [UInt32.le_iff_toNat_le]; exact hroom)]
    exact Nat.sub_add_cancel hroom
  have hlen := h.esp
  refine ⟨?_, ?_, ?_, ?_⟩
  · change { s'.cpu with esp := s'.cpu.esp - 4 } = { s.cpu with esp := s'.cpu.esp - 4 }
    rw [h.cpu]
  · change (s'.cpu.esp - 4).toNat + _ = _
    rw [List.length_append, List.length_singleton]
    omega
  · intro n
    change X86.words (store32 s'.mem (s'.cpu.esp - 4).toNat v.toNat) (s'.cpu.esp - 4).toNat _ = _
    rw [List.length_append, List.length_singleton, Nat.add_right_comm, words_succ,
      load32_store32_same _ _ v.toNat_lt, hesp, words_congr ?_, h.words]
    · simp
    · intro b hb _
      exact store32_of_outside (by omega)
  · intro a ha
    change a < (s'.cpu.esp - 4).toNat ∨ _ at ha
    change store32 s'.mem (s'.cpu.esp - 4).toNat v.toNat a = _
    rw [store32_of_outside (by omega)]
    exact h.keep a (by omega)

theorem foldl {vs : List UInt32} (h : Pushed ws s s') (hroom : 4 * vs.length ≤ s'.cpu.esp.toNat) :
    Pushed (ws ++ vs) s (vs.foldl State.push s') := by
  induction vs generalizing s' ws with
  | nil => simpa using h
  | cons v vs ih =>
      rw [List.length_cons] at hroom
      have hpush := h.push v (by omega)
      have hlen := h.esp
      have hlen' := hpush.esp
      rw [List.length_append, List.length_singleton] at hlen'
      have hrest := ih hpush (by omega)
      rw [List.append_assoc] at hrest
      exact hrest

end Pushed

theorem pushed_foldl (s : State) (ws : List UInt32) (hroom : 4 * ws.length ≤ s.cpu.esp.toNat) :
    Pushed ws s (ws.foldl State.push s) := (Pushed.nil s).foldl hroom

end SRos.X86
