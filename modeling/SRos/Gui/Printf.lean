import Mathlib.Data.Nat.Digits.Defs
import SRos.Kernel.Machine
import SRos.Lib.Run
import SRos.Lib.Stores

/-!
# `fb_printf` and `wm_printf`

Both functions render a format into a buffer of 256 bytes and test once for each character of the
format whether there is space. The two loops are one loop with the conversions as a parameter. The
model has the stores to `buf` and the reads of the format up to the call that puts `buf` on the
screen.
-/

namespace SRos.Gui

open Stores

inductive Conversion
  | string
  | decimal
  | hex
  | char
  | percent
  | unknown
  deriving DecidableEq

/-- The conversions of a function and its table of hexadecimal digits. -/
structure Dialect where
  conversion : UInt8 → Conversion
  hex : List UInt8

/-- The words of the argument list, and the strings that words point to. -/
structure Arguments where
  word : Nat → UInt32
  string : UInt32 → CStr

/-- `pos`, the stores to `buf`, the offsets at which the format has been read, and the number of
arguments that have been taken. -/
structure Printer where
  pos : Nat
  stores : List (Nat × UInt8)
  reads : List Nat
  args : Nat

namespace Printer

def start : Printer := ⟨0, [], [], 0⟩

/-- `buf[pos++] = c`. -/
def put (p : Printer) (c : UInt8) : Printer :=
  { p with pos := p.pos + 1, stores := p.stores ++ [(p.pos, c)] }

def read (p : Printer) (i : Nat) : Printer := { p with reads := p.reads ++ [i] }

def takeArg (p : Printer) : Printer := { p with args := p.args + 1 }

end Printer

def putString : List UInt8 → Printer → Printer
  | [], p => p
  | c :: str, p => if p.pos < 255 then putString str (p.put c) else p

/-- The digits in the order in which the loop stores them to `tmp`. -/
def decimalLoop (n : Nat) : List UInt8 :=
  if n = 0 then [] else UInt8.ofNat (48 + n % 10) :: decimalLoop (n / 10)

def hexLoop (hex : List UInt8) (n : Nat) : List UInt8 :=
  if n = 0 then [] else hex.getD (n &&& 0xF) 0 :: hexLoop hex (n >>> 4)
termination_by n
decreasing_by
  rw [Nat.shiftRight_eq_div_pow]
  omega

/-- The digits of a number in `tmp`, and the loop that puts them into `buf` in reverse order. -/
def putNumber (loop : Nat → List UInt8) (n : Nat) (p : Printer) : Printer :=
  let tmp := if n = 0 then [48] else loop n
  tmp.reverse.foldl Printer.put p

def convert (d : Dialect) (v : Arguments) (k : UInt8) (p : Printer) : Printer :=
  match d.conversion k with
  | .string => putString (v.string (v.word p.args)).bytes p.takeArg
  | .decimal => putNumber decimalLoop (v.word p.args).toNat p.takeArg
  | .hex => putNumber (hexLoop d.hex) (v.word p.args).toNat p.takeArg
  | .char => p.takeArg.put (v.word p.args).toUInt8
  | .percent => p.put 37
  | .unknown => (p.put 37).put k

/-- The loop over the format, of which `i` characters have been passed and the given bytes are
still in memory. -/
def printfLoop (d : Dialect) (v : Arguments) : List UInt8 → Nat → Printer → Printer
  | [], i, p => p.read i
  | c :: fmt, i, p =>
      let p := p.read i
      if c = 0 ∨ ¬ p.pos < 255 then p
      else if c = 37 then
        match fmt with
        | [] => p.read (i + 1)
        | k :: fmt => printfLoop d v fmt (i + 2) (convert d v k (p.read (i + 1)))
      else printfLoop d v fmt (i + 1) (p.put c)

/-- The loop and `buf[pos] = '\0'`. -/
def printf (d : Dialect) (v : Arguments) (fmt : List UInt8) : Printer :=
  let p := printfLoop d v fmt 0 .start
  { p with stores := p.stores ++ [(p.pos, 0)] }

def fbDialect : Dialect where
  conversion k :=
    if k = 115 then .string
    else if k = 100 then .decimal
    else if k = 120 then .hex
    else if k = 99 then .char
    else if k = 37 then .percent
    else .unknown
  hex := [48, 49, 50, 51, 52, 53, 54, 55, 56, 57, 65, 66, 67, 68, 69, 70]

def fbPrintf : Arguments → List UInt8 → Printer := printf fbDialect

def wmDialect : Dialect where
  conversion k :=
    if k = 115 then .string
    else if k = 100 ∨ k = 117 then .decimal
    else if k = 120 then .hex
    else if k = 99 then .char
    else if k = 37 then .percent
    else .unknown
  hex := [48, 49, 50, 51, 52, 53, 54, 55, 56, 57, 97, 98, 99, 100, 101, 102]

def wmPrintf : Arguments → List UInt8 → Printer := printf wmDialect

/-! ## The rendering of a format -/

/-- What a format consists of; the last is a percent sign at the end. -/
inductive Piece
  | plain (c : UInt8)
  | conversion (k : UInt8)
  | percentEnd

def pieces : List UInt8 → List Piece
  | [] => []
  | c :: fmt =>
      if c = 37 then
        match fmt with
        | [] => [.percentEnd]
        | k :: fmt => .conversion k :: pieces fmt
      else .plain c :: pieces fmt

theorem pieces_conversion (k : UInt8) (fmt : List UInt8) :
    pieces (37 :: k :: fmt) = .conversion k :: pieces fmt := by
  rw [pieces]
  exact if_pos rfl

theorem pieces_plain {c : UInt8} (hc : c ≠ 37) (fmt : List UInt8) :
    pieces (c :: fmt) = .plain c :: pieces fmt := by
  rw [pieces.eq_def]
  exact if_neg hc

/-- A number with its digits in a table. -/
def numeral (base : Nat) (digits : List UInt8) (n : Nat) : List UInt8 :=
  if n = 0 then [48] else ((Nat.digits base n).map (digits.getD · 0)).reverse

/-- The rendering of a conversion whose argument is the word `a`. -/
def Conversion.text (d : Dialect) (v : Arguments) (k : UInt8) (a : UInt32) : Conversion → List UInt8
  | .string => (v.string a).bytes
  | .decimal => numeral 10 [48, 49, 50, 51, 52, 53, 54, 55, 56, 57] a.toNat
  | .hex => numeral 16 d.hex a.toNat
  | .char => [a.toUInt8]
  | .percent => [37]
  | .unknown => [37, k]

def Conversion.takes : Conversion → Nat
  | .string | .decimal | .hex | .char => 1
  | .percent | .unknown => 0

/-- The rendering of a piece behind which `j` arguments have been taken. -/
def Piece.text (d : Dialect) (v : Arguments) (j : Nat) : Piece → List UInt8
  | .plain c => [c]
  | .conversion k => (d.conversion k).text d v k (v.word j)
  | .percentEnd => [37]

def Piece.takes (d : Dialect) : Piece → Nat
  | .conversion k => (d.conversion k).takes
  | _ => 0

def rendering (d : Dialect) (v : Arguments) : List Piece → Nat → List UInt8
  | [], _ => []
  | p :: ps, j => p.text d v j ++ rendering d v ps (j + p.takes d)

/-- Only the first 256 bytes of `buf` are written, nothing behind the NUL of the format is read, and
`buf` has the rendering, cut to 255 characters. -/
structure BoundsSafe (text : CStr) (rendered : List UInt8) (p : Printer) : Prop where
  writes : ∀ s ∈ p.stores, s.1 < 256
  reads : ∀ i ∈ p.reads, i ≤ text.bytes.length
  buf : ∀ buf : Nat → UInt8,
    (List.range ((rendered.take 255).length + 1)).map (perform p.stores buf) =
      rendered.take 255 ++ [0]

/-- The number of characters and of arguments behind a piece. -/
def advance (d : Dialect) (v : Arguments) (s : Nat × Nat) (p : Piece) : Nat × Nat :=
  (s.1 + (p.text d v s.2).length, s.2 + p.takes d)

/-- A piece that the loop comes to is not a percent sign at the end, and has space if it is not a
string. -/
def PieceFits (d : Dialect) (v : Arguments) (s : Nat × Nat) : Piece → Prop
  | .plain _ => True
  | .conversion k => s.1 < 255 → d.conversion k ≠ .string →
      s.1 + ((d.conversion k).text d v k (v.word s.2)).length ≤ 255
  | .percentEnd => ¬ s.1 < 255

/-! ## Numbers -/

theorem decimalLoop_eq (n : Nat) :
    decimalLoop n = (Nat.digits 10 n).map ([48, 49, 50, 51, 52, 53, 54, 55, 56, 57].getD · 0) := by
  induction n using decimalLoop.induct with
  | case1 => simp [decimalLoop]
  | case2 n hn ih =>
      have hdigit : ∀ r < 10, UInt8.ofNat (48 + r) =
          [48, 49, 50, 51, 52, 53, 54, 55, 56, 57].getD r 0 := by decide
      unfold decimalLoop
      rw [if_neg hn, ih, Nat.digits_def' (by decide) (Nat.pos_of_ne_zero hn), List.map_cons,
        hdigit _ (Nat.mod_lt _ (by decide))]

theorem hexLoop_eq (hex : List UInt8) (n : Nat) :
    hexLoop hex n = (Nat.digits 16 n).map (hex.getD · 0) := by
  induction n using hexLoop.induct with
  | case1 => simp [hexLoop]
  | case2 n hn ih =>
      have hshift : n >>> 4 = n / 16 := Nat.shiftRight_eq_div_pow n 4
      have hmask : n &&& 0xF = n % 16 := Nat.and_two_pow_sub_one_eq_mod n 4
      unfold hexLoop
      rw [if_neg hn, ih, hshift, hmask, Nat.digits_def' (by decide) (Nat.pos_of_ne_zero hn),
        List.map_cons]

section Writes

variable {d : Dialect} {v : Arguments} {p : Printer} {out : List UInt8} {k : UInt8} {i : Nat}

/-- The characters of a list have been stored one behind the other. -/
structure Writes (p : Printer) (out : List UInt8) : Prop where
  pos : p.pos = out.length
  stores : p.stores = out.mapIdx fun i c => (i, c)

theorem Writes.read (h : Writes p out) : Writes (p.read i) out := ⟨h.pos, h.stores⟩

theorem Writes.takeArg (h : Writes p out) : Writes p.takeArg out := ⟨h.pos, h.stores⟩

theorem Writes.put (h : Writes p out) (c : UInt8) : Writes (p.put c) (out ++ [c]) where
  pos := by simp [Printer.put, h.pos]
  stores := by simp [Printer.put, h.pos, h.stores, List.mapIdx_append]

theorem Writes.putAll (h : Writes p out) (cs : List UInt8) :
    Writes (cs.foldl Printer.put p) (out ++ cs) := by
  induction cs generalizing p out with
  | nil => rwa [List.append_nil]
  | cons c cs ih =>
      have hrest := ih (h.put c)
      rwa [List.append_assoc] at hrest

theorem Writes.putString (h : Writes p out) (str : List UInt8) :
    Writes (putString str p) (out ++ str.take (255 - out.length)) := by
  induction str generalizing p out with
  | nil => rwa [List.take_nil, List.append_nil]
  | cons c str ih =>
      unfold Gui.putString
      split
      · next hlt =>
          rw [h.pos] at hlt
          have hrest := ih (h.put c)
          rw [List.length_append, List.append_assoc] at hrest
          rw [show 255 - out.length = 255 - (out.length + 1) + 1 by omega, List.take_succ_cons]
          exact hrest
      · next hge =>
          rw [h.pos] at hge
          rwa [show 255 - out.length = 0 by omega, List.take_zero, List.append_nil]

theorem Writes.putNumber (h : Writes p out) {base : Nat} {digits : List UInt8}
    {loop : Nat → List UInt8} (hloop : ∀ n, loop n = (Nat.digits base n).map (digits.getD · 0))
    (n : Nat) : Writes (putNumber loop n p) (out ++ numeral base digits n) := by
  have htmp : (if n = 0 then [48] else loop n).reverse = numeral base digits n := by
    unfold numeral
    rw [hloop]
    split
    · rfl
    · rfl
  unfold Gui.putNumber
  dsimp only
  rw [htmp]
  exact h.putAll _

/-- A conversion emits its text, which is cut if it is a string. -/
theorem Writes.convert (h : Writes p out) (k : UInt8) :
    Writes (convert d v k p) (out ++
      if d.conversion k = .string then
        ((d.conversion k).text d v k (v.word p.args)).take (255 - out.length)
      else (d.conversion k).text d v k (v.word p.args)) := by
  unfold Gui.convert
  cases d.conversion k with
  | string => exact h.takeArg.putString _
  | decimal => exact h.takeArg.putNumber decimalLoop_eq _
  | hex => exact h.takeArg.putNumber (hexLoop_eq d.hex) _
  | char => exact h.takeArg.put _
  | percent => exact h.put _
  | unknown =>
      have hput := (h.put 37).put k
      rwa [List.append_assoc] at hput

theorem putString_args (str : List UInt8) (p : Printer) :
    (putString str p).args = p.args ∧ (putString str p).reads = p.reads := by
  induction str generalizing p with
  | nil => exact ⟨rfl, rfl⟩
  | cons c str ih =>
      unfold putString
      split
      · exact ih (p.put c)
      · exact ⟨rfl, rfl⟩

theorem putNumber_args (loop : Nat → List UInt8) (n : Nat) (p : Printer) :
    (putNumber loop n p).args = p.args ∧ (putNumber loop n p).reads = p.reads := by
  unfold putNumber
  dsimp only
  generalize (if n = 0 then [48] else loop n).reverse = cs
  induction cs generalizing p with
  | nil => exact ⟨rfl, rfl⟩
  | cons c cs ih => exact ih (p.put c)

theorem convert_args : (convert d v k p).args = p.args + (d.conversion k).takes ∧
    (convert d v k p).reads = p.reads := by
  unfold convert
  cases d.conversion k with
  | string => exact putString_args _ _
  | decimal => exact putNumber_args _ _ _
  | hex => exact putNumber_args _ _ _
  | char => exact ⟨rfl, rfl⟩
  | percent => exact ⟨rfl, rfl⟩
  | unknown => exact ⟨rfl, rfl⟩

/-! ## The loop -/

theorem printfLoop_full (hfull : 255 ≤ p.pos) (fmt : List UInt8) :
    printfLoop d v fmt i p = p.read i := by
  cases fmt with
  | nil => rfl
  | cons c fmt =>
      unfold printfLoop
      exact if_pos (Or.inr (Nat.not_lt.mpr hfull))

theorem printfLoop_nul (behind : List UInt8) : printfLoop d v (0 :: behind) i p = p.read i := by
  unfold printfLoop
  exact if_pos (Or.inl rfl)

theorem printfLoop_conversion (hlt : p.pos < 255) (fmt : List UInt8) :
    printfLoop d v (37 :: k :: fmt) i p =
      printfLoop d v fmt (i + 2) (convert d v k ((p.read i).read (i + 1))) := by
  have hgo : ¬ ((37 : UInt8) = 0 ∨ ¬ (p.read i).pos < 255) := by simpa [Printer.read] using hlt
  rw [printfLoop, if_neg hgo, if_pos rfl]

theorem printfLoop_plain {c : UInt8} (hlt : p.pos < 255) (hc0 : c ≠ 0) (hc : c ≠ 37)
    (fmt : List UInt8) :
    printfLoop d v (c :: fmt) i p = printfLoop d v fmt (i + 1) ((p.read i).put c) := by
  have hgo : ¬ (c = 0 ∨ ¬ (p.read i).pos < 255) := by simpa [Printer.read, hc0] using hlt
  rw [printfLoop.eq_def]
  dsimp only
  rw [if_neg hgo, if_neg hc]

theorem mem_reads_printfLoop (fmt : List UInt8) (i : Nat) (p : Printer) {r : Nat}
    (hr : r ∈ (p.read i).reads) : r ∈ (printfLoop d v fmt i p).reads := by
  induction fmt, i, p using printfLoop.induct d v with
  | case1 i p => exact hr
  | case2 c fmt i p _ hstop =>
      unfold printfLoop
      rwa [if_pos hstop]
  | case3 i p _ hgo =>
      unfold printfLoop
      rw [if_neg hgo, if_pos rfl]
      exact List.mem_append_left _ hr
  | case4 i p _ k fmt hgo ih =>
      unfold printfLoop
      rw [if_neg hgo, if_pos rfl]
      apply ih
      apply List.mem_append_left
      rw [convert_args.2]
      exact List.mem_append_left _ hr
  | case5 c fmt i p _ hgo hc ih =>
      unfold printfLoop
      rw [if_neg hgo, if_neg hc]
      exact ih (List.mem_append_left _ hr)

theorem along_full {ps : List Piece} {n j : Nat} (hfull : 255 ≤ n) :
    Along (advance d v) (PieceFits d v) (n, j) ps := by
  induction ps generalizing n j with
  | nil => exact along_nil
  | cons q ps ih =>
      refine along_cons.mpr ⟨?_, ih (hfull.trans (Nat.le_add_right n _))⟩
      cases q with
      | plain c => trivial
      | conversion k => exact fun hlt => absurd hlt (Nat.not_lt.mpr hfull)
      | percentEnd => exact Nat.not_lt.mpr hfull

/-- What a run of the loop over the rest of a format ends with. -/
structure Rendered (limit : Nat) (rendered : List UInt8) (p : Printer) : Prop where
  writes : Writes p rendered
  reads : ∀ r ∈ p.reads, r ≤ limit

def Overrun (limit : Nat) (p : Printer) : Prop :=
  (∃ r ∈ p.reads, limit < r) ∨ ∃ out, Writes p out ∧ 255 < out.length

/-- The rest of a format is rendered if it is safe, and the run leaves its bounds otherwise. -/
structure Outcome (limit : Nat) (safe : Prop) (rendered : List UInt8) (p : Printer) : Prop where
  rendered : safe → Rendered limit rendered p
  overrun : ¬ safe → Overrun limit p

theorem reads_le_of_read {limit : Nat} (hreads : ∀ r ∈ p.reads, r ≤ limit) (hi : i ≤ limit) :
    ∀ r ∈ (p.read i).reads, r ≤ limit := by
  intro r hr
  rcases List.mem_append.mp hr with hr | hr
  · exact hreads r hr
  · rwa [List.mem_singleton.mp hr]

theorem outcome_full {limit : Nat} {ps : List Piece} (hw : Writes p out) (hlen : out.length = 255)
    (hreads : ∀ r ∈ p.reads, r ≤ limit) (hi : i ≤ limit) (fmt : List UInt8) :
    Outcome limit (Along (advance d v) (PieceFits d v) (out.length, p.args) ps)
      ((out ++ rendering d v ps p.args).take 255) (printfLoop d v fmt i p) := by
  rw [printfLoop_full (by rw [hw.pos, hlen])]
  refine ⟨fun _ => ⟨?_, reads_le_of_read hreads hi⟩, fun hnot => absurd ?_ hnot⟩
  · rw [← hlen, List.take_left]
    exact hw.read
  · exact along_full (by rw [hlen])

theorem Outcome.piece {limit : Nat} {q : Piece} {ps : List Piece} {args : Nat} {r : Printer}
    (hfits : PieceFits d v (out.length, args) q)
    (h : Outcome limit (Along (advance d v) (PieceFits d v)
        ((out ++ q.text d v args).length, args + q.takes d) ps)
      ((out ++ q.text d v args ++ rendering d v ps (args + q.takes d)).take 255) r) :
    Outcome limit (Along (advance d v) (PieceFits d v) (out.length, args) (q :: ps))
      ((out ++ rendering d v (q :: ps) args).take 255) r := by
  rw [List.length_append, List.append_assoc] at h
  refine ⟨fun hsafe => h.rendered (along_cons.mp hsafe).2, fun hnot => h.overrun fun hrest => ?_⟩
  exact hnot (along_cons.mpr ⟨hfits, hrest⟩)

/-- A conversion that does not fit fills the buffer if it is a string, and overruns it otherwise. -/
theorem outcome_cut {limit : Nat} {ps : List Piece} (hw : Writes p out) (hlt : out.length < 255)
    (hreads : ∀ r ∈ p.reads, r ≤ limit) (hi : i ≤ limit)
    (hcut : 255 < out.length + ((d.conversion k).text d v k (v.word p.args)).length)
    (fmt : List UInt8) :
    Outcome limit (Along (advance d v) (PieceFits d v) (out.length, p.args) (.conversion k :: ps))
      ((out ++ rendering d v (.conversion k :: ps) p.args).take 255)
      (printfLoop d v fmt i (convert d v k p)) := by
  have hconvert := hw.convert (d := d) (v := v) k
  have hreads' : ∀ r ∈ ((convert d v k p).read i).reads, r ≤ limit :=
    reads_le_of_read (by rwa [convert_args.2]) hi
  by_cases hstring : d.conversion k = .string
  · rw [if_pos hstring] at hconvert
    have hlength : (((d.conversion k).text d v k (v.word p.args)).take (255 - out.length)).length =
        255 - out.length := by
      rw [List.length_take]
      omega
    have hfull : 255 ≤ (convert d v k p).pos := by
      rw [hconvert.pos, List.length_append, hlength]
      omega
    rw [printfLoop_full hfull]
    refine ⟨fun _ => ⟨?_, hreads'⟩, fun hnot => absurd (along_cons.mpr ⟨?_, ?_⟩) hnot⟩
    · have htake : (out ++ rendering d v (.conversion k :: ps) p.args).take 255 =
          out ++ ((d.conversion k).text d v k (v.word p.args)).take (255 - out.length) := by
        change (out ++ ((d.conversion k).text d v k (v.word p.args) ++ _)).take 255 = _
        rw [List.take_append, List.take_of_length_le hlt.le, List.take_append_of_le_length (by omega)]
      rw [htake]
      exact hconvert.read
    · exact fun _ hne => absurd hstring hne
    · exact along_full hcut.le
  · rw [if_neg hstring] at hconvert
    have hlong : 255 < (out ++ (d.conversion k).text d v k (v.word p.args)).length := by
      rwa [List.length_append]
    rw [printfLoop_full (by rw [hconvert.pos]; exact hlong.le)]
    refine ⟨fun hsafe => ?_, fun _ => Or.inr ⟨_, hconvert.read, hlong⟩⟩
    exact absurd ((along_cons.mp hsafe).1 hlt hstring) (Nat.not_le.mpr hcut)

/-- A conversion that fits is emitted as a whole. -/
theorem Writes.convert_fits (h : Writes p out)
    (hfits : out.length + ((d.conversion k).text d v k (v.word p.args)).length ≤ 255) :
    Writes (Gui.convert d v k p) (out ++ (d.conversion k).text d v k (v.word p.args)) := by
  have hemit := h.convert (d := d) (v := v) k
  rwa [List.take_of_length_le (by omega), ite_self] at hemit

/-- A conversion and what the loop does behind it where the conversion fits. -/
theorem outcome_conversion {limit : Nat} {ps : List Piece} (hw : Writes p out)
    (hlt : out.length < 255) (hreads : ∀ r ∈ p.reads, r ≤ limit) (hi : i + 2 ≤ limit)
    (fmt : List UInt8)
    (hrest : ∀ (p' : Printer) (out' : List UInt8), Writes p' out' → out'.length ≤ 255 →
      (∀ r ∈ p'.reads, r ≤ limit) →
      Outcome limit (Along (advance d v) (PieceFits d v) (out'.length, p'.args) ps)
        ((out' ++ rendering d v ps p'.args).take 255) (printfLoop d v fmt (i + 2) p')) :
    Outcome limit (Along (advance d v) (PieceFits d v) (out.length, p.args) (.conversion k :: ps))
      ((out ++ rendering d v (.conversion k :: ps) p.args).take 255)
      (printfLoop d v (37 :: k :: fmt) i p) := by
  have hw' : Writes ((p.read i).read (i + 1)) out := hw.read.read
  have hreads' : ∀ r ∈ ((p.read i).read (i + 1)).reads, r ≤ limit :=
    reads_le_of_read (reads_le_of_read hreads (by omega)) (by omega)
  rw [printfLoop_conversion (hw.pos ▸ hlt)]
  by_cases hcut : 255 < out.length + ((d.conversion k).text d v k (v.word p.args)).length
  · exact outcome_cut hw' hlt hreads' hi hcut fmt
  · have hfits := Nat.not_lt.mp hcut
    refine Outcome.piece (fun _ _ => hfits) ?_
    have hstep := hrest _ _ (hw'.convert_fits hfits) (by rwa [List.length_append])
      (by rwa [convert_args.2])
    rwa [convert_args.1] at hstep

/-- The loop over the rest of a format, with what the pieces in front of it have emitted. -/
theorem printfLoop_pieces (text behind : List UInt8) (hnul : (0 : UInt8) ∉ text)
    (hw : Writes p out) (hlen : out.length ≤ 255) (hreads : ∀ r ∈ p.reads, r ≤ i + text.length) :
    Outcome (i + text.length)
      (Along (advance d v) (PieceFits d v) (out.length, p.args) (pieces text))
      ((out ++ rendering d v (pieces text) p.args).take 255)
      (printfLoop d v (text ++ 0 :: behind) i p) := by
  induction text using pieces.induct generalizing i p out with
  | case1 =>
      rw [List.nil_append, printfLoop_nul]
      refine ⟨fun _ => ⟨?_, reads_le_of_read hreads (Nat.le_add_right i _)⟩,
        fun hnot => absurd along_nil hnot⟩
      rw [show rendering d v (pieces []) p.args = [] from rfl, List.append_nil,
        List.take_of_length_le hlen]
      exact hw.read
  | case2 =>
      rcases Nat.lt_or_ge out.length 255 with hlt | hfull
      · -- the NUL is taken for the conversion, and the loop goes on behind it
        rw [List.singleton_append, printfLoop_conversion (hw.pos ▸ hlt)]
        refine ⟨fun hsafe => absurd hlt (along_cons.mp hsafe).1, fun _ => Or.inl ⟨i + 2, ?_, ?_⟩⟩
        · exact mem_reads_printfLoop _ _ _ (List.mem_append_right _ (List.mem_singleton_self _))
        · exact Nat.lt_succ_self _
      · exact outcome_full hw (by omega) hreads (Nat.le_add_right i _) _
  | case3 k fmt ih =>
      rcases Nat.lt_or_ge out.length 255 with hlt | hfull
      · have hlength : i + (37 :: k :: fmt).length = i + 2 + fmt.length := by
          simp only [List.length_cons]
          omega
        have hrest : (0 : UInt8) ∉ fmt := by
          intro hmem
          exact hnul (List.mem_cons_of_mem _ (List.mem_cons_of_mem _ hmem))
        rw [hlength] at hreads ⊢
        rw [pieces_conversion, List.cons_append, List.cons_append]
        exact outcome_conversion hw hlt hreads (Nat.le_add_right _ _) _
          fun p' out' hw' hlen' hreads' => ih hrest hw' hlen' hreads'
      · exact outcome_full hw (by omega) hreads (Nat.le_add_right i _) _
  | case4 c fmt hc ih =>
      rcases Nat.lt_or_ge out.length 255 with hlt | hfull
      · obtain ⟨hc0, hrest⟩ := not_or.mp (List.mem_cons.not.mp hnul)
        have hlength : i + (c :: fmt).length = i + 1 + fmt.length := by
          rw [List.length_cons, Nat.add_right_comm, Nat.add_assoc]
        have hreads' : ∀ r ∈ ((p.read i).put c).reads, r ≤ i + 1 + fmt.length := by
          rw [← hlength]
          exact reads_le_of_read hreads (Nat.le_add_right i _)
        rw [hlength, pieces_plain hc, List.cons_append,
          printfLoop_plain (hw.pos ▸ hlt) (Ne.symm hc0) hc]
        have hfits : PieceFits d v (out.length, p.args) (.plain c) := trivial
        refine Outcome.piece hfits ?_
        exact ih hrest (hw.read.put c) (by rwa [List.length_append]) hreads'
      · exact outcome_full hw (by omega) hreads (Nat.le_add_right i _) _

theorem Writes.boundsSafe {text : CStr} {rendered : List UInt8} (hw : Writes p (rendered.take 255))
    (hreads : ∀ r ∈ p.reads, r ≤ text.bytes.length) :
    BoundsSafe text rendered { p with stores := p.stores ++ [(p.pos, 0)] } := by
  have hput := hw.put 0
  have hstores : p.stores ++ [(p.pos, 0)] =
      (rendered.take 255 ++ [0]).mapIdx fun i c => (i, c) := hput.stores
  have hlength : (rendered.take 255 ++ [0]).length ≤ 256 := by
    rw [List.length_append]
    exact Nat.succ_le_succ (List.length_take_le 255 rendered)
  refine ⟨?_, hreads, fun buf => ?_⟩
  · dsimp only
    rw [hstores]
    intro s hs
    obtain ⟨i, hi, rfl⟩ := List.mem_mapIdx.mp hs
    exact hi.trans_le hlength
  · have hlist := map_perform_mapIdx (rendered.take 255 ++ [0]) buf
    rw [← hstores, List.length_append] at hlist
    exact hlist

/-- The theorem for one of the two functions. -/
theorem printf_safe_iff (d : Dialect) (v : Arguments) (text : CStr) (behind : List UInt8) :
    BoundsSafe text (rendering d v (pieces text.bytes) 0) (printf d v (text.bytes ++ 0 :: behind)) ↔
      Along (advance d v) (PieceFits d v) (0, 0) (pieces text.bytes) := by
  have hrun := @printfLoop_pieces d v .start [] 0 text.bytes behind text.noNul
    ⟨rfl, rfl⟩ (Nat.zero_le _) nofun
  rw [Nat.zero_add, List.nil_append] at hrun
  unfold printf
  constructor
  · intro h
    by_contra hnot
    rcases hrun.overrun hnot with ⟨r, hr, hlt⟩ | ⟨out, hw, hlt⟩
    · exact absurd (h.reads r hr) (Nat.not_le.mpr hlt)
    · have hnul := h.writes (_, 0) (List.mem_append_right _ (List.mem_singleton_self _))
      rw [hw.pos] at hnul
      omega
  · intro h
    obtain ⟨hw, hreads⟩ := hrun.rendered h
    exact hw.boundsSafe hreads

end Writes

/-- For every format, whatever is in memory behind it, and all arguments, `fb_printf` and
`wm_printf` stay inside `buf` and inside the format and leave the rendering of the format, cut to
255 characters, in `buf` exactly if no percent sign at the end and no number and no unknown
conversion without space for it is come to. -/
theorem printf_boundsSafe_iff (v : Arguments) (text : CStr) (behind : List UInt8) :
    (BoundsSafe text (rendering fbDialect v (pieces text.bytes) 0)
        (fbPrintf v (text.bytes ++ 0 :: behind)) ↔
      Along (advance fbDialect v) (PieceFits fbDialect v) (0, 0) (pieces text.bytes)) ∧
    (BoundsSafe text (rendering wmDialect v (pieces text.bytes) 0)
        (wmPrintf v (text.bytes ++ 0 :: behind)) ↔
      Along (advance wmDialect v) (PieceFits wmDialect v) (0, 0) (pieces text.bytes)) :=
  ⟨printf_safe_iff fbDialect v text behind, printf_safe_iff wmDialect v text behind⟩

/-- A string of 254 characters, and the number 10. -/
def longArguments : Arguments where
  word j := if j = 0 then 0x1000 else 10
  string _ := ⟨List.replicate 254 97, fun h => by cases List.eq_of_mem_replicate h⟩

/-- The format `%` is read behind its NUL, and `%s%d` is stored behind the end of `buf`. -/
theorem printf_not_boundsSafe :
    (¬ BoundsSafe ⟨[37], by decide⟩ (rendering fbDialect longArguments (pieces [37]) 0)
        (fbPrintf longArguments ([37] ++ 0 :: [0])) ∧
      ¬ BoundsSafe ⟨[37], by decide⟩ (rendering wmDialect longArguments (pieces [37]) 0)
        (wmPrintf longArguments ([37] ++ 0 :: [0]))) ∧
    ¬ BoundsSafe ⟨[37, 115, 37, 100], by decide⟩
        (rendering fbDialect longArguments (pieces [37, 115, 37, 100]) 0)
        (fbPrintf longArguments ([37, 115, 37, 100] ++ 0 :: [])) ∧
      ¬ BoundsSafe ⟨[37, 115, 37, 100], by decide⟩
        (rendering wmDialect longArguments (pieces [37, 115, 37, 100]) 0)
        (wmPrintf longArguments ([37, 115, 37, 100] ++ 0 :: [])) := by
  have hlone : ∀ d v, ¬ Along (advance d v) (PieceFits d v) (0, 0) (pieces [37]) :=
    fun d v h => h [] .percentEnd [] rfl (by decide : 0 < 255)
  have hlong : ∀ d : Dialect, d.conversion 115 = .string → d.conversion 100 = .decimal →
      ¬ Along (advance d longArguments) (PieceFits d longArguments) (0, 0)
        (pieces [37, 115, 37, 100]) := by
    intro d hs hd h
    have hfits := h [.conversion 115] (.conversion 100) [] rfl
    have hstate : [Piece.conversion 115].foldl (advance d longArguments) (0, 0) = (254, 1) := by
      change (0 + ((d.conversion 115).text d longArguments 115 0x1000).length,
        0 + (d.conversion 115).takes) = _
      rw [hs]
      change (0 + (List.replicate 254 (97 : UInt8)).length, 1) = _
      rw [List.length_replicate]
    rw [hstate] at hfits
    have hlength := hfits (by decide : 254 < 255) (by rw [hd]; decide)
    rw [hd] at hlength
    have hten : (numeral 10 [48, 49, 50, 51, 52, 53, 54, 55, 56, 57] 10).length = 2 := by
      simp [numeral]
    exact absurd hlength (by
      change ¬ 254 + (numeral 10 [48, 49, 50, 51, 52, 53, 54, 55, 56, 57] 10).length ≤ 255
      omega)
  refine ⟨⟨?_, ?_⟩, ?_, ?_⟩
  · exact (printf_safe_iff fbDialect longArguments ⟨[37], by decide⟩ [0]).not.mpr (hlone _ _)
  · exact (printf_safe_iff wmDialect longArguments ⟨[37], by decide⟩ [0]).not.mpr (hlone _ _)
  · exact (printf_safe_iff fbDialect longArguments ⟨[37, 115, 37, 100], by decide⟩ []).not.mpr
      (hlong _ rfl rfl)
  · exact (printf_safe_iff wmDialect longArguments ⟨[37, 115, 37, 100], by decide⟩ []).not.mpr
      (hlong _ rfl rfl)

end SRos.Gui
