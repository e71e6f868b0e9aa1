import Mathlib.Data.UInt
import SRos.Drivers.Pci
import SRos.Lib.Bytes

/-!
# What a search of the PCI bus finds

The hardware decodes the address that was written last and answers with the register of that
function. Over any configuration space, both searches give the first function in bus order that
can be seen and matches, with its own registers.
-/

namespace SRos.Pci

variable {σ : Type}

/-- The register `r` of a function, behind an address. -/
structure Decodes (a : UInt32) (f : Fn) (r : Nat) : Prop where
  bus : f.bus < 256
  dev : f.dev < 32
  func : f.func < 8
  reg : r < 64
  address : a.toNat = 2 ^ 31 + 2 ^ 16 * f.bus + 2 ^ 11 * f.dev + 2 ^ 8 * f.func + 4 * r

/-- The two ports of the configuration space: the registers of every function, and the writes to
them, the latest first. -/
structure ConfigPorts (σ : Type) where
  exec : Device σ
  latch : σ → UInt32
  space : σ → Fn → Nat → UInt32
  written : σ → List (Fn × Nat × UInt32)
  select : ∀ s a, latch (exec (.outl pciConfigAddress a) s).2 = a ∧
    space (exec (.outl pciConfigAddress a) s).2 = space s ∧
    written (exec (.outl pciConfigAddress a) s).2 = written s
  read : ∀ s f r, Decodes (latch s) f r → (exec (.inl pciConfigData) s).1 = space s f r ∧
    space (exec (.inl pciConfigData) s).2 = space s ∧
    written (exec (.inl pciConfigData) s).2 = written s
  write : ∀ s f r v, Decodes (latch s) f r →
    written (exec (.outl pciConfigData v) s).2 = (f, r, v) :: written s

/-- A function that the searches can be asked for. -/
structure Fn.InRange (f : Fn) : Prop where
  bus : f.bus < 256
  dev : f.dev < 32
  func : f.func < 8

/-- A field below the fields that are already there. -/
theorem or_field {a b k : Nat} (hb : b < 2 ^ k) : 2 ^ k * a ||| b = 2 ^ k * a + b :=
  (Nat.two_pow_add_eq_or_of_lt hb a).symm

theorem toNat_field {n k : Nat} (h : n * 2 ^ k < 2 ^ 32) (hk : k < 32) :
    (UInt32.ofNat n <<< UInt32.ofNat k).toNat = n * 2 ^ k := by
  have hn : n < 2 ^ 32 := Nat.lt_of_le_of_lt (Nat.le_mul_of_pos_right n (Nat.two_pow_pos k)) h
  simp only [UInt32.toNat_shiftLeft, UInt32.toNat_ofNat']
  rw [Nat.mod_eq_of_lt hn, Nat.mod_eq_of_lt (show k < 2 ^ 32 by omega), Nat.mod_eq_of_lt hk,
    Nat.shiftLeft_eq, Nat.mod_eq_of_lt h]

theorem decodes_address {f : Fn} (h : f.InRange) {offset : Nat} (ho : offset < 256) :
    Decodes (address f offset) f (offset / 4) := by
  obtain ⟨hbus, hdev, hfunc⟩ := h
  refine ⟨hbus, hdev, hfunc, by omega, ?_⟩
  have hmask : offset &&& 0xFC = offset / 4 * 4 := Bytes.and_highMask (k := 2) (w := 6) ho
  have hoff : (UInt32.ofNat (offset &&& 0xFC)).toNat = offset / 4 * 4 := by
    rw [hmask, UInt32.toNat_ofNat']
    omega
  have h16 := toNat_field (n := f.bus) (k := 16) (by omega) (by decide)
  have h11 := toNat_field (n := f.dev) (k := 11) (by omega) (by decide)
  have h8 := toNat_field (n := f.func) (k := 8) (by omega) (by decide)
  unfold address
  rw [UInt32.toNat_or, UInt32.toNat_or, UInt32.toNat_or, UInt32.toNat_or, hoff]
  change (((2 ^ 31 * 1 ||| (UInt32.ofNat f.bus <<< UInt32.ofNat 16).toNat) |||
    (UInt32.ofNat f.dev <<< UInt32.ofNat 11).toNat) |||
      (UInt32.ofNat f.func <<< UInt32.ofNat 8).toNat) ||| offset / 4 * 4 = _
  rw [h16, h11, h8, or_field (by omega),
    show 2 ^ 31 * 1 + f.bus * 2 ^ 16 = 2 ^ 16 * (2 ^ 15 + f.bus) by omega, or_field (by omega),
    show 2 ^ 16 * (2 ^ 15 + f.bus) + f.dev * 2 ^ 11 = 2 ^ 11 * (2 ^ 20 + 2 ^ 5 * f.bus + f.dev) by omega,
    or_field (by omega),
    show 2 ^ 11 * (2 ^ 20 + 2 ^ 5 * f.bus + f.dev) + f.func * 2 ^ 8 =
      2 ^ 8 * (2 ^ 23 + 2 ^ 8 * f.bus + 2 ^ 3 * f.dev + f.func) by omega, or_field (by omega)]
  omega

/-- Two registers never have the same address. -/
theorem Decodes.unique {a : UInt32} {f g : Fn} {r q : Nat} (h : Decodes a f r) (h' : Decodes a g q) :
    f = g ∧ r = q := by
  obtain ⟨h₁, h₂, h₃, h₄, h₅⟩ := h
  obtain ⟨k₁, k₂, k₃, k₄, k₅⟩ := h'
  have hfields : f.bus = g.bus ∧ f.dev = g.dev ∧ f.func = g.func ∧ r = q := by omega
  obtain ⟨bus, dev, func⟩ := f
  obtain ⟨bus', dev', func'⟩ := g
  obtain ⟨rfl, rfl, rfl, rfl⟩ := hfields
  exact ⟨rfl, rfl⟩

/-! ## What the registers say -/

section Registers

variable (cfg : Fn → Nat → UInt32) (f : Fn)

def vendorOf : UInt16 := (cfg f 0 &&& 0xFFFF).toUInt16

def deviceOf : UInt16 := (cfg f 0 >>> 16).toUInt16

def classOf : UInt8 := (cfg f 2 >>> 24).toUInt8

def subclassOf : UInt8 := (cfg f 2 >>> 16).toUInt8

/-- A register of all ones or all zeros stands for a function that is missing. -/
def present : Bool := vendorOf cfg f ≠ 0xFFFF ∧ vendorOf cfg f ≠ 0x0000

/-- The device of the function, which its function 0 stands for, has several functions. -/
def multiFunction : Bool := (cfg { f with func := 0 } 3 >>> 16 &&& 0xFF).toUInt8 &&& 0x80 ≠ 0

/-- A function other than 0 is only there in a device with several functions. -/
def visible : Bool :=
  present cfg f && (f.func = 0 || (present cfg { f with func := 0 } && multiFunction cfg f))

def describe : PciDevice where
  fn := f
  vendorId := vendorOf cfg f
  deviceId := deviceOf cfg f
  classCode := classOf cfg f
  subclass := subclassOf cfg f
  progIf := (cfg f 2 >>> 8).toUInt8
  irqLine := (cfg f 15 &&& 0xFF).toUInt8
  bar := (List.range 6).map fun i => cfg f (4 + i)

end Registers

/-- A search with a test, and what is made of the first hit. -/
theorem findSome?_ite {α β : Type} (p : α → Bool) (g : α → β) (xs : List α) :
    xs.findSome? (fun x => if p x then some (g x) else none) = (xs.find? p).map g := by
  induction xs with
  | nil => rfl
  | cons x xs ih =>
      rw [List.findSome?_cons, List.find?_cons]
      cases p x with
      | true => rfl
      | false => exact ih

/-- All functions, in the order of the loops. -/
def functions : List Fn :=
  (List.range 256).flatMap fun bus => (List.range 32).flatMap fun dev =>
    (List.range 8).map fun func => ⟨bus, dev, func⟩

/-! ## The searches -/

namespace ConfigPorts

variable (P : ConfigPorts σ)

def run {α : Type} (p : PortProg α) (s : σ) : α × σ := P.exec.machine.run p s

theorem run_bind {α β : Type} (p : PortProg α) (f : α → PortProg β) (s : σ) :
    P.run (p >>= f) s = P.run (f (P.run p s).1) (P.run p s).2 :=
  P.exec.machine.run_bind p f s

/-- The registers and the writes to them. -/
def Same (cfg : Fn → Nat → UInt32) (w : List (Fn × Nat × UInt32)) (s : σ) : Prop :=
  P.space s = cfg ∧ P.written s = w

variable {P} {cfg : Fn → Nat → UInt32} {w : List (Fn × Nat × UInt32)} {s : σ} {f : Fn}

theorem run_pciConfigRead (hf : f.InRange) (offset : Nat) (ho : offset < 256) (h : P.Same cfg w s) :
    ∃ s', P.run (pciConfigRead f offset) s = (cfg f (offset / 4), s') ∧ P.Same cfg w s' := by
  obtain ⟨hlatch, hspace, hwritten⟩ := P.select s (address f offset)
  have hdec := decodes_address hf ho
  rw [← hlatch] at hdec
  obtain ⟨hval, hspace', hwritten'⟩ := P.read _ f (offset / 4) hdec
  refine ⟨(P.exec (.inl pciConfigData) (P.exec (.outl pciConfigAddress (address f offset)) s).2).2,
    ?_, ?_, ?_⟩
  · have hvalue : (P.exec (.inl pciConfigData)
        (P.exec (.outl pciConfigAddress (address f offset)) s).2).1 = cfg f (offset / 4) := by
      rw [hval, hspace, h.1]
    exact Prod.ext hvalue rfl
  · rw [hspace', hspace, h.1]
  · rw [hwritten', hwritten, h.2]

theorem run_pciReadBars (hf : f.InRange) {n i : Nat} (hi : i + n = 6) (h : P.Same cfg w s) :
    ∃ s', P.run (pciReadBars f n i) s = ((List.range n).map fun k => cfg f (4 + (i + k)), s') ∧
      P.Same cfg w s' := by
  induction n generalizing i s with
  | zero => exact ⟨s, rfl, h⟩
  | succ n ih =>
      obtain ⟨s₁, hrun₁, hsame₁⟩ :=
        run_pciConfigRead hf (pciBar0 + i * 4) (by unfold pciBar0; omega) h
      obtain ⟨s₂, hrun₂, hsame₂⟩ := ih (i := i + 1) (by omega) hsame₁
      refine ⟨s₂, ?_, hsame₂⟩
      unfold pciReadBars
      rw [P.run_bind, hrun₁, P.run_bind, hrun₂, List.range_succ_eq_map, List.map_cons, List.map_map]
      have hhead : (pciBar0 + i * 4) / 4 = 4 + (i + 0) := by
        unfold pciBar0
        omega
      have htail : (fun k => cfg f (4 + (i + 1 + k))) = (fun k => cfg f (4 + (i + k))) ∘ Nat.succ := by
        funext k
        rw [Function.comp_apply, Nat.succ_eq_add_one, show i + 1 + k = i + (k + 1) by omega]
      rw [hhead, htail]
      rfl

/-- A probe that describes the functions of a set. -/
def Probes (P : ConfigPorts σ) (cfg : Fn → Nat → UInt32) (w : List (Fn × Nat × UInt32)) (probe : Probe)
    (hit : Fn → Bool) : Prop :=
  ∀ f, f.InRange → ∀ s, P.Same cfg w s →
    ∃ s', P.run (probe f (vendorOf cfg f)) s = (if hit f then some (describe cfg f) else none, s') ∧
      P.Same cfg w s'

theorem probes_deviceProbe (vendorId deviceId : UInt16) :
    Probes P cfg w (deviceProbe vendorId deviceId)
      fun f => vendorOf cfg f = vendorId ∧ deviceOf cfg f = deviceId := by
  intro f hf s h
  obtain ⟨s₁, hrun₁, h₁⟩ := run_pciConfigRead hf pciDeviceId (by decide) h
  obtain ⟨s₂, hrun₂, h₂⟩ := run_pciConfigRead hf pciClassSubclass (by decide) h₁
  obtain ⟨s₃, hrun₃, h₃⟩ := run_pciConfigRead hf pciInterruptLine (by decide) h₂
  obtain ⟨s₄, hrun₄, h₄⟩ := run_pciReadBars hf (n := 6) (i := 0) rfl h₃
  unfold deviceProbe
  rw [P.run_bind, hrun₁]
  by_cases hhit : vendorOf cfg f = vendorId ∧ deviceOf cfg f = deviceId
  · refine ⟨s₄, ?_, h₄⟩
    have hcond : vendorOf cfg f = vendorId ∧ (cfg f (pciDeviceId / 4) >>> 16).toUInt16 = deviceId := hhit
    rw [if_pos hcond, P.run_bind, hrun₂, P.run_bind, hrun₃, P.run_bind, hrun₄,
      if_pos (by simpa using hhit)]
    simp only [Nat.zero_add]
    rfl
  · refine ⟨s₁, ?_, h₁⟩
    have hcond : ¬(vendorOf cfg f = vendorId ∧ (cfg f (pciDeviceId / 4) >>> 16).toUInt16 = deviceId) :=
      hhit
    rw [if_neg hcond, if_neg (by simpa using hhit)]
    rfl

theorem probes_classProbe (classCode subclass : UInt8) :
    Probes P cfg w (classProbe classCode subclass)
      fun f => classOf cfg f = classCode ∧ subclassOf cfg f = subclass := by
  intro f hf s h
  obtain ⟨s₁, hrun₁, h₁⟩ := run_pciConfigRead hf pciClassSubclass (by decide) h
  obtain ⟨s₂, hrun₂, h₂⟩ := run_pciConfigRead hf pciDeviceId (by decide) h₁
  obtain ⟨s₃, hrun₃, h₃⟩ := run_pciConfigRead hf pciInterruptLine (by decide) h₂
  obtain ⟨s₄, hrun₄, h₄⟩ := run_pciReadBars hf (n := 6) (i := 0) rfl h₃
  unfold classProbe
  rw [P.run_bind, hrun₁]
  by_cases hhit : classOf cfg f = classCode ∧ subclassOf cfg f = subclass
  · refine ⟨s₄, ?_, h₄⟩
    have hcond : (cfg f (pciClassSubclass / 4) >>> 24).toUInt8 = classCode ∧
        (cfg f (pciClassSubclass / 4) >>> 16).toUInt8 = subclass := hhit
    rw [if_pos hcond, P.run_bind, hrun₂, P.run_bind, hrun₃, P.run_bind, hrun₄,
      if_pos (by simpa using hhit)]
    simp only [Nat.zero_add]
    rfl
  · refine ⟨s₁, ?_, h₁⟩
    have hcond : ¬((cfg f (pciClassSubclass / 4) >>> 24).toUInt8 = classCode ∧
        (cfg f (pciClassSubclass / 4) >>> 16).toUInt8 = subclass) := hhit
    rw [if_neg hcond, if_neg (by simpa using hhit)]
    rfl

/-- How the round for a function ends. -/
def roundOf (cfg : Fn → Nat → UInt32) (hit : Fn → Bool) (f : Fn) : Round PciDevice :=
  if present cfg f = false then (if f.func = 0 then .leave else .next)
  else if hit f then .found (describe cfg f)
  else if f.func = 0 ∧ multiFunction cfg f = false then .leave
  else .next

theorem present_eq_false : present cfg f = false ↔
    vendorOf cfg f = 0xFFFF ∨ vendorOf cfg f = 0x0000 := by
  unfold present
  simp only [decide_eq_false_iff_not, not_and_or, not_not]

theorem multiFunction_eq_false : multiFunction cfg f = false ↔
    (cfg { f with func := 0 } 3 >>> 16 &&& 0xFF).toUInt8 &&& 0x80 = 0 := by
  unfold multiFunction
  simp only [decide_eq_false_iff_not, ne_eq, not_not]

theorem run_funcRound {probe : Probe} {hit : Fn → Bool} (hprobe : Probes P cfg w probe hit)
    {bus dev func : Nat} (hf : Fn.InRange ⟨bus, dev, func⟩) (h : P.Same cfg w s) :
    ∃ s', P.run (funcRound probe bus dev func) s = (roundOf cfg hit ⟨bus, dev, func⟩, s') ∧
      P.Same cfg w s' := by
  obtain ⟨s₁, hrun₁, h₁⟩ := run_pciConfigRead hf pciVendorId (by decide) h
  unfold funcRound roundOf
  rw [P.run_bind, hrun₁]
  change ∃ s', P.run (if vendorOf cfg ⟨bus, dev, func⟩ = 0xFFFF ∨
    vendorOf cfg ⟨bus, dev, func⟩ = 0x0000 then _ else probe ⟨bus, dev, func⟩
      (vendorOf cfg ⟨bus, dev, func⟩) >>= _) s₁ = _ ∧ _
  by_cases hmissing : present cfg ⟨bus, dev, func⟩ = false
  · rw [if_pos (present_eq_false.mp hmissing), if_pos hmissing]
    exact ⟨s₁, rfl, h₁⟩
  · rw [if_neg (fun hv => hmissing (present_eq_false.mpr hv)), if_neg hmissing]
    obtain ⟨s₂, hrun₂, h₂⟩ := hprobe ⟨bus, dev, func⟩ hf s₁ h₁
    rw [P.run_bind, hrun₂]
    by_cases hhit : hit ⟨bus, dev, func⟩ = true
    · rw [if_pos hhit, if_pos hhit]
      exact ⟨s₂, rfl, h₂⟩
    · rw [if_neg hhit, if_neg hhit]
      by_cases hzero : func = 0
      · subst hzero
        obtain ⟨s₃, hrun₃, h₃⟩ := run_pciConfigRead hf pciHeaderType (by decide) h₂
        refine ⟨s₃, ?_, h₃⟩
        rw [if_pos rfl, P.run_bind, hrun₃]
        by_cases hmulti : multiFunction cfg ⟨bus, dev, 0⟩ = false
        · have hbit := multiFunction_eq_false.mp hmulti
          rw [if_pos ⟨rfl, hmulti⟩]
          exact congrArg (·, s₃) (if_pos hbit)
        · have hbit := fun hzero => hmulti (multiFunction_eq_false.mpr hzero)
          rw [if_neg (fun hand => hmulti hand.2)]
          exact congrArg (·, s₃) (if_neg hbit)
      · refine ⟨s₂, ?_, h₂⟩
        simp only [if_neg hzero]
        rw [if_neg (fun hand => hzero hand.1)]
        rfl

/-- What a search looks for. -/
def Wanted (cfg : Fn → Nat → UInt32) (hit : Fn → Bool) (f : Fn) : Bool := visible cfg f && hit f

/-- The functions other than 0, behind a function 0 that is there. -/
theorem search_others {hit : Fn → Bool} {bus dev : Nat} (hzero : present cfg ⟨bus, dev, 0⟩ = true)
    (hmulti : multiFunction cfg ⟨bus, dev, 0⟩ = true) {is : List Nat} (his : ∀ i ∈ is, i ≠ 0) :
    Round.search (fun func => roundOf cfg hit ⟨bus, dev, func⟩) is =
      (is.find? fun func => Wanted cfg hit ⟨bus, dev, func⟩).map fun func =>
        describe cfg ⟨bus, dev, func⟩ := by
  induction is with
  | nil => rfl
  | cons i is ih =>
      have hi := his i List.mem_cons_self
      have hrest := ih fun j hj => his j (List.mem_cons_of_mem i hj)
      rw [Round.search_cons, List.find?_cons, hrest]
      have hmulti' : multiFunction cfg ⟨bus, dev, i⟩ = true := hmulti
      unfold roundOf Wanted visible
      cases hpresent : present cfg ⟨bus, dev, i⟩ with
      | false => simp [hi]
      | true =>
          cases hhit : hit ⟨bus, dev, i⟩ with
          | false => simp [hi]
          | true => simp [hi, hzero, hmulti']

theorem search_funcs (hit : Fn → Bool) (bus dev : Nat) :
    Round.search (fun func => roundOf cfg hit ⟨bus, dev, func⟩) (List.range 8) =
      ((List.range 8).find? fun func => Wanted cfg hit ⟨bus, dev, func⟩).map fun func =>
        describe cfg ⟨bus, dev, func⟩ := by
  have hothers : ∀ i ∈ (List.range 7).map Nat.succ, i ≠ 0 := by decide
  rw [List.range_succ_eq_map, Round.search_cons, List.find?_cons]
  cases hpresent : present cfg ⟨bus, dev, 0⟩ with
  | false =>
      have hnone : ((List.range 7).map Nat.succ).find?
          (fun func => Wanted cfg hit ⟨bus, dev, func⟩) = none := by
        refine List.find?_eq_none.mpr fun i hi => ?_
        simp [Wanted, visible, hpresent, hothers i hi]
      rw [hnone]
      simp [roundOf, Wanted, visible, hpresent]
  | true =>
      cases hhit : hit ⟨bus, dev, 0⟩ with
      | true => simp [roundOf, Wanted, visible, hpresent, hhit]
      | false =>
          cases hmulti : multiFunction cfg ⟨bus, dev, 0⟩ with
          | true =>
              rw [search_others hpresent hmulti hothers]
              simp [roundOf, Wanted, hpresent, hhit, hmulti]
          | false =>
              have hnone : ((List.range 7).map Nat.succ).find?
                  (fun func => Wanted cfg hit ⟨bus, dev, func⟩) = none := by
                refine List.find?_eq_none.mpr fun i hi => ?_
                have hmulti' : multiFunction cfg ⟨bus, dev, i⟩ = false := hmulti
                simp [Wanted, visible, hmulti', hothers i hi]
              rw [hnone]
              simp [roundOf, Wanted, hpresent, hhit, hmulti]

theorem run_devRound {probe : Probe} {hit : Fn → Bool} (hprobe : Probes P cfg w probe hit)
    {bus dev : Nat} (hbus : bus < 256) (hdev : dev < 32) (h : P.Same cfg w s) :
    ∃ s', P.run (devRound probe bus dev) s =
        (.ofOption ((((List.range 8).map fun func => Fn.mk bus dev func).find? (Wanted cfg hit)).map
          (describe cfg)), s') ∧ P.Same cfg w s' := by
  obtain ⟨s', hrun, hs'⟩ := Prog.run_search P.exec.machine (fun func hfunc _ hs =>
    run_funcRound hprobe ⟨hbus, hdev, List.mem_range.mp hfunc⟩ hs) h
  refine ⟨s', ?_, hs'⟩
  unfold devRound run
  rw [Machine.run_bind, hrun, search_funcs, List.find?_map, Option.map_map]
  rfl

theorem run_busRound {probe : Probe} {hit : Fn → Bool} (hprobe : Probes P cfg w probe hit)
    {bus : Nat} (hbus : bus < 256) (h : P.Same cfg w s) :
    ∃ s', P.run (busRound probe bus) s =
        (.ofOption ((((List.range 32).flatMap fun dev => (List.range 8).map fun func =>
          Fn.mk bus dev func).find? (Wanted cfg hit)).map (describe cfg)), s') ∧ P.Same cfg w s' := by
  obtain ⟨s', hrun, hs'⟩ := Prog.run_search P.exec.machine (fun dev hdev _ hs =>
    run_devRound hprobe hbus (List.mem_range.mp hdev) hs) h
  refine ⟨s', ?_, hs'⟩
  unfold busRound run
  rw [Machine.run_bind, hrun, Round.search_ofOption, List.find?_flatMap, List.map_findSome?]
  rfl

theorem run_scan {probe : Probe} {hit : Fn → Bool} (hprobe : Probes P cfg w probe hit)
    (h : P.Same cfg w s) :
    ∃ s', P.run (scan probe) s = ((functions.find? (Wanted cfg hit)).map (describe cfg), s') ∧
      P.Same cfg w s' := by
  obtain ⟨s', hrun, hs'⟩ := Prog.run_search P.exec.machine (fun bus hbus _ hs =>
    run_busRound hprobe (List.mem_range.mp hbus) hs) h
  refine ⟨s', ?_, hs'⟩
  unfold scan run functions
  rw [hrun, Round.search_ofOption, List.find?_flatMap, List.map_findSome?]
  rfl

end ConfigPorts

/-- Over any configuration space both searches fill in the first function, in the order of buses,
devices and functions, that can be seen and has the identifiers that are looked for, and give `-1`
if there is none. No register is written. -/
theorem pciFind_eq (P : ConfigPorts σ) (s : σ) :
    (∀ vendorId deviceId, ∃ s', P.run (pciFindDevice vendorId deviceId) s =
      ((functions.find? fun f => visible (P.space s) f &&
        (vendorOf (P.space s) f = vendorId ∧ deviceOf (P.space s) f = deviceId)).map
          (describe (P.space s)), s') ∧ P.space s' = P.space s ∧ P.written s' = P.written s) ∧
    ∀ classCode subclass, ∃ s', P.run (pciFindByClass classCode subclass) s =
      ((functions.find? fun f => visible (P.space s) f &&
        (classOf (P.space s) f = classCode ∧ subclassOf (P.space s) f = subclass)).map
          (describe (P.space s)), s') ∧ P.space s' = P.space s ∧ P.written s' = P.written s :=
  ⟨fun vendorId deviceId =>
    ConfigPorts.run_scan (ConfigPorts.probes_deviceProbe vendorId deviceId) ⟨rfl, rfl⟩,
  fun classCode subclass =>
    ConfigPorts.run_scan (ConfigPorts.probes_classProbe classCode subclass) ⟨rfl, rfl⟩⟩

theorem inRange_of_mem {f : Fn} (h : f ∈ functions) : f.InRange := by
  simp only [functions, List.mem_flatMap, List.mem_map, List.mem_range] at h
  obtain ⟨bus, hbus, dev, hdev, func, hfunc, rfl⟩ := h
  exact ⟨hbus, hdev, hfunc⟩

/-- The command that `pci_enable_bus_master` writes over a command register. -/
def enabled (command : UInt32) : UInt32 := ((command &&& 0xFFFF).toUInt16 ||| pciCmdEnable).toUInt32

/-- The bits of the command are kept or set, and all bits of the status are written as zero, which
clears none of them. -/
theorem testBit_enabled (command : UInt32) (i : Nat) : (enabled command).toNat.testBit i =
    (decide (i < 16) && (command.toNat.testBit i || decide (i < 3))) := by
  have hmod : (0xFFFF : UInt32).toNat = 2 ^ 16 - 1 := rfl
  have henable : pciCmdEnable.toNat = 2 ^ 3 - 1 := rfl
  unfold enabled
  rw [UInt16.toNat_toUInt32, UInt16.toNat_or, UInt32.toNat_toUInt16, UInt32.toNat_and, hmod, henable,
    Nat.and_two_pow_sub_one_eq_mod, Nat.mod_mod, Nat.testBit_or, Nat.testBit_mod_two_pow,
    Nat.testBit_two_pow_sub_one]
  by_cases hi : i < 3
  · simp [hi, show i < 16 by omega]
  · simp [hi]

/-- A device that was found gets one write, to its command register. -/
theorem pciEnableBusMaster_found (P : ConfigPorts σ) {s s₁ : σ} {vendorId deviceId : UInt16}
    {d : PciDevice} (h : P.run (pciFindDevice vendorId deviceId) s = (some d, s₁)) :
    ∃ s₂, P.run (pciEnableBusMaster d.fn) s₁ = ((), s₂) ∧
      P.written s₂ = (d.fn, 1, enabled (P.space s d.fn 1)) :: P.written s ∧
      ∀ i, (enabled (P.space s d.fn 1)).toNat.testBit i =
        (decide (i < 16) && ((P.space s d.fn 1).toNat.testBit i || decide (i < 3))) := by
  obtain ⟨s', hrun, hsame⟩ := ConfigPorts.run_scan
    (ConfigPorts.probes_deviceProbe vendorId deviceId) (P := P) (s := s) ⟨rfl, rfl⟩
  obtain ⟨hfind, rfl⟩ := Prod.mk.inj (hrun.symm.trans h)
  obtain ⟨f, hf, rfl⟩ := Option.map_eq_some_iff.mp hfind
  have hrange := inRange_of_mem (List.mem_of_find?_eq_some hf)
  obtain ⟨s₂, hread, -, hwritten₂⟩ :=
    ConfigPorts.run_pciConfigRead hrange pciCommand (by decide) hsame
  obtain ⟨hlatch, -, hwritten₃⟩ := P.select s₂ (address f pciCommand)
  have hdec := decodes_address hrange (show pciCommand < 256 by decide)
  rw [← hlatch] at hdec
  refine ⟨(P.exec (.outl pciConfigData (enabled (P.space s f 1)))
    (P.exec (.outl pciConfigAddress (address f pciCommand)) s₂).2).2, ?_, ?_, ?_⟩
  · change P.run (pciEnableBusMaster f) s' = _
    unfold pciEnableBusMaster
    rw [P.run_bind, hread]
    rfl
  · rw [P.write _ f _ _ hdec, hwritten₃, hwritten₂]
    rfl
  · exact testBit_enabled _

/-! ## A bus whose registers keep what they hold -/

/-- The address that was written last, and the writes. -/
structure Bus where
  latch : UInt32
  written : List (Fn × Nat × UInt32)

def decodeFn (a : UInt32) : Fn :=
  ⟨a.toNat / 2 ^ 16 % 256, a.toNat / 2 ^ 11 % 32, a.toNat / 2 ^ 8 % 8⟩

def decodeReg (a : UInt32) : Nat := a.toNat / 4 % 64

theorem decode_of_decodes {a : UInt32} {f : Fn} {r : Nat} (h : Decodes a f r) :
    decodeFn a = f ∧ decodeReg a = r := by
  obtain ⟨h₁, h₂, h₃, h₄, h₅⟩ := h
  refine ⟨?_, by unfold decodeReg; omega⟩
  unfold decodeFn
  obtain ⟨bus, dev, func⟩ := f
  dsimp only at *
  congr 1 <;> omega

def Bus.exec (cfg : Fn → Nat → UInt32) : Device Bus
  | .inl _, s => (cfg (decodeFn s.latch) (decodeReg s.latch), s)
  | .outl port v, s =>
      ((), if port = pciConfigAddress then { s with latch := v }
        else { s with written := (decodeFn s.latch, decodeReg s.latch, v) :: s.written })
  | .inb _, s => (0, s)
  | .outb _ _, s => ((), s)
  | .inw _, s => (0, s)
  | .outw _ _, s => ((), s)

def bus (cfg : Fn → Nat → UInt32) : ConfigPorts Bus where
  exec := Bus.exec cfg
  latch := Bus.latch
  space _ := cfg
  written := Bus.written
  select _ _ := ⟨rfl, rfl, rfl⟩
  read s f r h := by
    obtain ⟨hf, hr⟩ := decode_of_decodes h
    refine ⟨?_, rfl, rfl⟩
    change cfg (decodeFn s.latch) (decodeReg s.latch) = cfg f r
    rw [hf, hr]
  write s f r v h := by
    obtain ⟨hf, hr⟩ := decode_of_decodes h
    change (decodeFn s.latch, decodeReg s.latch, v) :: s.written = _
    rw [hf, hr]

/-- A network card with the command register `0x103`, and nothing else. -/
def cardOnly (f : Fn) (r : Nat) : UInt32 :=
  if f = ⟨0, 3, 0⟩ then (if r = 0 then 0x813910EC else if r = 1 then 0x02900103 else 0) else 0

theorem pciEnableBusMaster_found_card :
    ∃ d s₁ s₂, (bus cardOnly).run (pciFindDevice 0x10EC 0x8139) ⟨0, []⟩ = (some d, s₁) ∧
      d.fn = ⟨0, 3, 0⟩ ∧ (bus cardOnly).run (pciEnableBusMaster d.fn) s₁ = ((), s₂) ∧
      s₂.written = [(⟨0, 3, 0⟩, 1, 0x107)] := by
  have hfound : ((bus cardOnly).run (pciFindDevice 0x10EC 0x8139) ⟨0, []⟩).1 =
      some (describe cardOnly ⟨0, 3, 0⟩) := by decide +kernel
  obtain ⟨s₂, hrun, hwritten, -⟩ :=
    pciEnableBusMaster_found (bus cardOnly) (Prod.ext hfound rfl)
  exact ⟨_, _, s₂, Prod.ext hfound rfl, rfl, hrun, hwritten⟩

end SRos.Pci
