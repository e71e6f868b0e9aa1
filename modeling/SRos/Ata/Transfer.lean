import SRos.Ata.Drive
import SRos.Lib.Bytes

/-!
# The transfer of sectors

What each loop of the driver does to a drive that follows the protocol. The driver takes the end of
`BSY` for the moment at which the other status bits count, and both agree on the word that is
transferred next.
-/

namespace SRos.Ata

open Bytes

variable {σ : Type} (D : Drive σ) {s : σ}

/-! ## Waiting -/

theorem notBusy_of_ready {v : View} {st : UInt8} (h : v.Shows st) (hbusy : v.busy = 0) :
    notBusy st = some 0 := if_pos (h.bsy.mpr hbusy)

theorem notBusy_of_busy {v : View} {st : UInt8} (h : v.Shows st) (hbusy : v.busy ≠ 0) :
    notBusy st = none := if_neg fun hst => hbusy (h.bsy.mp hst)

/-- `ata_wait_busy` outlasts a drive that is busy for fewer polls than it makes. -/
theorem run_pollLoop_notBusy {n : Nat} (hn : (D.view s).busy < n) :
    ∃ s', D.run (pollLoop notBusy n) s = (0, s') ∧
      D.view s' = { D.view s with busy := 0 } := by
  induction n generalizing s with
  | zero => omega
  | succ n ih =>
      obtain ⟨hshows, hview⟩ := D.poll s
      unfold pollLoop
      rw [D.run_inb_bind]
      by_cases hbusy : (D.view s).busy = 0
      · rw [notBusy_of_ready hshows hbusy]
        refine ⟨_, rfl, ?_⟩
        rw [hview, View.tick, hbusy]
      · rw [notBusy_of_busy hshows hbusy]
        have hlt : (D.view (D.exec (.inb ataPrimaryAltstat) s).2).busy < n := by
          rw [hview, View.tick]
          dsimp only
          omega
        obtain ⟨s', hrun, hview'⟩ := ih hlt
        refine ⟨s', hrun, ?_⟩
        rw [hview', hview]
        rfl

theorem run_ataWaitBusy (s : σ) :
    ∃ s', D.run ataWaitBusy s = (0, s') ∧ D.view s' = { D.view s with busy := 0 } :=
  run_pollLoop_notBusy D (D.prompt s)

/-- What `ata_wait_drq` returns is the result of its first look at a drive that is not busy. -/
theorem run_ataWaitDrq {r : Int} (s : σ)
    (h : ∀ st, View.Shows { D.view s with busy := 0 } st → dataRequested st = some r) :
    ∃ s', D.run ataWaitDrq s = (r, s') ∧ D.view s' = { D.view s with busy := 0 } := by
  obtain ⟨s₁, hrun, hview⟩ := run_ataWaitBusy D s
  obtain ⟨hshows, hview'⟩ := D.poll s₁
  refine ⟨(D.exec (.inb ataPrimaryAltstat) s₁).2, ?_, ?_⟩
  · unfold ataWaitDrq
    rw [D.run_bind, hrun]
    change D.run (pollLoop dataRequested (29999998 + 1)) s₁ = _
    unfold pollLoop
    rw [D.run_inb_bind, h _ (hview ▸ hshows)]
    rfl
  · rw [hview', hview]
    rfl

theorem run_ataWaitDrq_asks (h : (D.view s).phase.isIdle = false) :
    ∃ s', D.run ataWaitDrq s = (0, s') ∧ D.view s' = { D.view s with busy := 0 } := by
  refine run_ataWaitDrq D s fun st hst => ?_
  have herr : st &&& ataStatusErr = 0 := (hst.err rfl).mpr fun heq => by
    simp [show (D.view s).phase = .idle true from heq, Phase.isIdle] at h
  have hdrq : st &&& ataStatusDrq ≠ 0 := fun heq => by
    simp [show (D.view s).phase.isIdle = true from (hst.drq rfl).mp heq] at h
  unfold dataRequested
  rw [if_neg (not_not.mpr herr), if_pos hdrq]

theorem run_ataWaitDrq_error (h : (D.view s).phase = .idle true) :
    ∃ s', D.run ataWaitDrq s = (-1, s') ∧ D.view s' = { D.view s with busy := 0 } := by
  refine run_ataWaitDrq D s fun st hst => ?_
  exact if_pos fun heq => (hst.err rfl).mp heq h

/-! ## Commands -/

/-- The drive register of a sector address: the four high bits, LBA mode and the master drive. -/
theorem driveMaster_or :
    ∀ k < 16, (ataDriveMaster ||| UInt8.ofNat k).toNat % 16 = k ∧
      (ataDriveMaster ||| UInt8.ofNat k) &&& 0x50 = 0x40 := by
  decide

theorem view_load {v : View} (hview : D.view s = v) (h : v.Ready) {p : Nat} (val : UInt8)
    (hp : p ∈ taskFile) : D.view (D.exec (.outb p val) s).2 = v.load p val := by
  subst hview
  exact D.load s p val h hp

/-- The task file after the five writes in front of a command. -/
def View.loaded (v : View) (lba : Nat) (count : UInt8) : View :=
  ((((v.load ataPrimarySectors count).load ataPrimaryLbaLo (UInt8.ofNat lba)).load
    ataPrimaryLbaMid (UInt8.ofNat (lba >>> 8))).load ataPrimaryLbaHi (UInt8.ofNat (lba >>> 16))).load
      ataPrimaryDrive (ataDriveMaster ||| UInt8.ofNat ((lba >>> 24) &&& 0x0F))

/-- The 28 low bits of the sector address reach the drive. -/
theorem loaded_spec (v : View) (lba : Nat) (count : UInt8) :
    (v.loaded lba count).Selected ∧ (v.loaded lba count).lba = lba % 2 ^ 28 ∧
      (v.loaded lba count).reg ataPrimarySectors = count := by
  have hhigh : (lba >>> 24) &&& 0x0F < 16 := Nat.lt_of_le_of_lt Nat.and_le_right (by decide)
  obtain ⟨hlow, hsel⟩ := driveMaster_or _ hhigh
  have hand : (lba >>> 24) &&& 0x0F = lba / 2 ^ 24 % 16 := by
    rw [Nat.shiftRight_eq_div_pow]
    exact Nat.and_two_pow_sub_one_eq_mod _ 4
  refine ⟨hsel, ?_, rfl⟩
  have hlo : (v.loaded lba count).reg ataPrimaryLbaLo = UInt8.ofNat lba := rfl
  have hmid : (v.loaded lba count).reg ataPrimaryLbaMid = UInt8.ofNat (lba >>> 8) := rfl
  have hhi : (v.loaded lba count).reg ataPrimaryLbaHi = UInt8.ofNat (lba >>> 16) := rfl
  have hdrive : (v.loaded lba count).reg ataPrimaryDrive =
      ataDriveMaster ||| UInt8.ofNat ((lba >>> 24) &&& 0x0F) := rfl
  unfold View.lba
  rw [hlo, hmid, hhi, hdrive, hlow, hand]
  simp only [UInt8.toNat_ofNat', Nat.shiftRight_eq_div_pow]
  omega

theorem run_issue (h : (D.view s).Ready) (lba : Nat) (count cmd : UInt8) :
    ∃ s', D.run (issue lba count cmd) s = D.exec (.outb ataPrimaryCmd cmd) s' ∧
      D.view s' = (D.view s).loaded lba count := by
  have h₁ := view_load D rfl h count (p := ataPrimarySectors) (by decide)
  have h₂ := view_load D h₁ h (UInt8.ofNat lba) (p := ataPrimaryLbaLo) (by decide)
  have h₃ := view_load D h₂ h (UInt8.ofNat (lba >>> 8)) (p := ataPrimaryLbaMid) (by decide)
  have h₄ := view_load D h₃ h (UInt8.ofNat (lba >>> 16)) (p := ataPrimaryLbaHi) (by decide)
  have h₅ := view_load D h₄ h (ataDriveMaster ||| UInt8.ofNat ((lba >>> 24) &&& 0x0F))
    (p := ataPrimaryDrive) (by decide)
  exact ⟨_, rfl, h₅⟩

theorem count_of_ne_zero {v : View} {count : UInt8} (hreg : v.reg ataPrimarySectors = count)
    (h : count ≠ 0) : v.count = count.toNat := by
  unfold View.count
  rw [hreg, if_neg h]

/-! ## Reading -/

theorem toNat_wordAt (buf : Nat → UInt8) (i : Nat) :
    (wordAt buf i).toNat = (buf i).toNat + 2 ^ 8 * (buf (i + 1)).toNat := by
  have hlow := (buf i).toNat_lt
  have hhigh := (buf (i + 1)).toNat_lt
  have hor := Nat.two_pow_add_eq_or_of_lt hlow (buf (i + 1)).toNat
  have hmod : (buf (i + 1)).toNat * 2 ^ 8 % 65536 = 2 ^ 8 * (buf (i + 1)).toNat := by omega
  unfold wordAt
  simp only [UInt16.toNat_or, UInt16.toNat_shiftLeft, UInt8.toNat_toUInt16, Nat.shiftLeft_eq]
  change (buf i).toNat ||| (buf (i + 1)).toNat * 2 ^ 8 % 65536 = _
  rw [hmod, Nat.or_comm, ← hor, Nat.add_comm]

theorem wordAt_low (buf : Nat → UInt8) (i : Nat) : (wordAt buf i).toUInt8 = buf i := by
  apply UInt8.toNat_inj.mp
  have hlow := (buf i).toNat_lt
  rw [UInt16.toNat_toUInt8, toNat_wordAt]
  omega

theorem wordAt_high (buf : Nat → UInt8) (i : Nat) :
    (wordAt buf i >>> 8).toUInt8 = buf (i + 1) := by
  apply UInt8.toNat_inj.mp
  have hlow := (buf i).toNat_lt
  have hhigh := (buf (i + 1)).toNat_lt
  rw [UInt16.toNat_toUInt8, UInt16.toNat_shiftRight, toNat_wordAt, Nat.shiftRight_eq_div_pow]
  change ((buf i).toNat + 2 ^ 8 * (buf (i + 1)).toNat) / 2 ^ 8 % 2 ^ 8 = _
  omega

/-- Two more bytes in front of a copy. -/
theorem splice_two (buf src : Nat → UInt8) (a n : Nat) :
    splice (Function.update (Function.update buf a (src 0)) (a + 1) (src 1)) (a + 2) n
      (fun k => src (k + 2)) = splice buf a (n + 2) src := by
  funext i
  by_cases hi : a + 2 ≤ i ∧ i < a + 2 + n
  · obtain ⟨k, rfl⟩ := Nat.exists_eq_add_of_le hi.1
    rw [splice_inside (by omega), Nat.add_assoc, splice_inside (by omega), Nat.add_comm 2]
  · rw [splice_outside (by omega)]
    by_cases h₁ : i = a + 1
    · rw [h₁, Function.update_self, splice_inside (by omega)]
    · rw [Function.update_of_ne h₁]
      by_cases h₀ : i = a
      · rw [h₀, Function.update_self]
        exact (splice_inside (i := 0) (by omega)).symm
      · rw [Function.update_of_ne h₀, splice_outside (by omega)]

/-- The words of one sector. -/
theorem run_readWords {lba left n i : Nat} (base : Nat) (buf : Nat → UInt8)
    (hbusy : (D.view s).busy = 0)
    (hphase : (D.view s).phase = .dataIn lba left i) (hi : i + n = 256) (hn : n ≠ 0) :
    ∃ s', D.run (readWords base n i buf) s =
        (splice buf (base + i * 2) (n * 2) fun k => (D.view s).medium lba (i * 2 + k), s') ∧
      (D.view s').medium = (D.view s).medium ∧
      (1 < left → (D.view s').GoesOn (.dataIn (lba + 1) (left - 1) 0)) ∧
      (left = 1 → (D.view s').phase = .idle false) := by
  induction n generalizing i buf s with
  | zero => exact absurd rfl hn
  | succ n ih =>
      obtain ⟨hword, hout⟩ := D.dataIn s lba left i hbusy hphase (by omega)
      unfold readWords
      rw [D.run_inw_bind, hword, wordAt_low, wordAt_high]
      by_cases hlast : i + 1 = 256
      · obtain rfl : n = 0 := by omega
        refine ⟨_, ?_, hout.medium, fun h => hout.next hlast h, fun h => hout.done hlast h⟩
        unfold readWords
        have hsplice := splice_two buf (fun k => (D.view s).medium lba (i * 2 + k)) (base + i * 2) 0
        rw [splice_zero] at hsplice
        exact congrArg (·, _) hsplice
      · obtain ⟨hbusy', hphase'⟩ := hout.more (by omega)
        obtain ⟨s', hrun, hmedium, hnext, hdone⟩ := ih _ hbusy' hphase' (by omega) (by omega)
        refine ⟨s', ?_, hmedium.trans hout.medium, hnext, hdone⟩
        have hsrc : (fun k => (D.view s).medium lba ((i + 1) * 2 + k)) =
            fun k => (D.view s).medium lba (i * 2 + (k + 2)) := by
          funext k
          rw [show (i + 1) * 2 + k = i * 2 + (k + 2) by omega]
        rw [hrun, hout.medium, hsrc, show base + (i + 1) * 2 = base + i * 2 + 2 by omega,
          show (n + 1) * 2 = n * 2 + 2 by omega]
        exact congrArg (·, s')
          (splice_two buf (fun k => (D.view s).medium lba (i * 2 + k)) (base + i * 2) (n * 2))

theorem splice_append (buf src : Nat → UInt8) (a m n : Nat) :
    splice (splice buf a m src) (a + m) n (fun k => src (m + k)) = splice buf a (m + n) src := by
  funext i
  by_cases hm : a ≤ i ∧ i < a + m
  · obtain ⟨k, rfl⟩ := Nat.exists_eq_add_of_le hm.1
    rw [splice_outside (by omega), splice_inside (by omega), splice_inside (by omega)]
  · by_cases hn : a + m ≤ i ∧ i < a + m + n
    · obtain ⟨k, rfl⟩ := Nat.exists_eq_add_of_le hn.1
      rw [splice_inside (by omega), Nat.add_assoc, splice_inside (by omega)]
    · rw [splice_outside (by omega), splice_outside (by omega), splice_outside (by omega)]

theorem splice_congr {buf src src' : Nat → UInt8} {a n : Nat} (h : ∀ i, i < n → src i = src' i) :
    splice buf a n src = splice buf a n src' := by
  funext i
  by_cases hi : a ≤ i ∧ i < a + n
  · obtain ⟨k, rfl⟩ := Nat.exists_eq_add_of_le hi.1
    rw [splice_inside (by omega), splice_inside (by omega), h k (by omega)]
  · rw [splice_outside (by omega), splice_outside (by omega)]

/-- The bytes of the sectors from `lba` on. -/
def bytesFrom (medium : Nat → Sector) (lba : Nat) : Nat → UInt8 := fun k =>
  medium (lba + k / ataSectorSize) (k % ataSectorSize)

theorem bytesFrom_of_lt (medium : Nat → Sector) (lba : Nat) {k : Nat} (h : k < ataSectorSize) :
    bytesFrom medium lba k = medium lba k := by
  unfold bytesFrom
  rw [Nat.div_eq_of_lt h, Nat.mod_eq_of_lt h, Nat.add_zero]

theorem bytesFrom_succ (medium : Nat → Sector) (lba k : Nat) :
    bytesFrom medium lba (ataSectorSize + k) = bytesFrom medium (lba + 1) k := by
  unfold bytesFrom ataSectorSize
  rw [Nat.add_mod_left, Nat.add_div_left _ (by decide), Nat.add_assoc, Nat.add_comm 1]

/-- How a read of `n` sectors into the bytes from `a` on ends: with all of them in the buffer, or
with a drive that has given up. -/
inductive ReadEnd (medium : Nat → Sector) (phase : Phase) (lba n a : Nat) (buf : Nat → UInt8)
    (count : UInt8) : Int × (Nat → UInt8) → Prop
  | done (hphase : phase = .idle false) : ReadEnd medium phase lba n a buf count
      (count.toNat * ataSectorSize, splice buf a (n * ataSectorSize) (bytesFrom medium lba))
  | error {buf' : Nat → UInt8} (hphase : phase = .idle true)
      (hbuf : ∀ i, i < a ∨ a + n * ataSectorSize ≤ i → buf' i = buf i) :
      ReadEnd medium phase lba n a buf count (-1, buf')

theorem run_readSectors (count : UInt8) (lba n k : Nat) (buf : Nat → UInt8)
    (hnext : n ≠ 0 → (D.view s).GoesOn (.dataIn lba n 0))
    (hdone : n = 0 → (D.view s).phase = .idle false) :
    ∃ r s', D.run (readSectors count n k buf) s = (r, s') ∧
      (D.view s').medium = (D.view s).medium ∧
      ReadEnd (D.view s).medium (D.view s').phase lba n (k * ataSectorSize) buf count r := by
  induction n generalizing lba k buf s with
  | zero =>
      have hend : ReadEnd (D.view s).medium (D.view s).phase lba 0 (k * ataSectorSize) buf
        count _ := .done (hdone rfl)
      rw [Nat.zero_mul, splice_zero] at hend
      exact ⟨_, s, rfl, rfl, hend⟩
  | succ n ih =>
      unfold readSectors
      rw [D.run_bind]
      obtain hphase | hphase := hnext (by omega)
      · obtain ⟨s₁, hrun₁, hview₁⟩ := run_ataWaitDrq_asks D (s := s) (by rw [hphase]; rfl)
        have hbusy₁ : (D.view s₁).busy = 0 := by rw [hview₁]
        have hphase₁ : (D.view s₁).phase = .dataIn lba (n + 1) 0 := by rw [hview₁, ← hphase]
        obtain ⟨s₂, hrun₂, hmedium₂, hnext₂, hdone₂⟩ :=
          run_readWords D (n := 256) (k * ataSectorSize) buf hbusy₁ hphase₁ rfl (by decide)
        have hmedium : (D.view s₂).medium = (D.view s).medium := by rw [hmedium₂, hview₁]
        obtain ⟨r, s', hrun, hmedium', hend⟩ := ih (lba + 1) (k + 1)
          (splice buf (k * ataSectorSize) ataSectorSize (bytesFrom (D.view s).medium lba))
          (fun h => hnext₂ (by omega)) (fun h => hdone₂ (by omega))
        refine ⟨r, s', ?_, hmedium'.trans hmedium, ?_⟩
        · rw [hrun₁]
          change D.run (readWords (k * ataSectorSize) 256 0 buf >>= _) s₁ = _
          have hwords : splice buf (k * ataSectorSize + 0 * 2) (256 * 2)
              (fun i => (D.view s₁).medium lba (0 * 2 + i)) =
                splice buf (k * ataSectorSize) ataSectorSize (bytesFrom (D.view s).medium lba) := by
            rw [Nat.zero_mul, Nat.add_zero]
            refine splice_congr fun i hi => ?_
            rw [Nat.zero_add, bytesFrom_of_lt _ _ hi, hview₁]
          rw [D.run_bind, hrun₂, hwords]
          exact hrun
        · cases hend with
          | done hphase' =>
              have hsrc : bytesFrom (D.view s).medium (lba + 1) =
                  fun i => bytesFrom (D.view s).medium lba (ataSectorSize + i) := by
                funext i
                rw [bytesFrom_succ]
              rw [hmedium, hsrc, Nat.succ_mul, splice_append, Nat.add_comm ataSectorSize, ← Nat.succ_mul]
              exact .done hphase'
          | error hphase' hbuf =>
              have hk := Nat.add_one_mul k ataSectorSize
              have hn := Nat.add_one_mul n ataSectorSize
              refine .error hphase' fun i hi => ?_
              rw [hbuf i (by omega)]
              exact splice_outside (by omega)
      · obtain ⟨s₁, hrun₁, hview₁⟩ := run_ataWaitDrq_error D hphase
        rw [hrun₁]
        refine ⟨(-1, buf), s₁, rfl, by rw [hview₁], .error ?_ fun _ _ => rfl⟩
        rw [hview₁]
        exact hphase

/-- `ata_read_sectors` and `ata_write_sectors` up to the command, on a drive that is at rest. -/
theorem run_prefix (lba : Nat) {count : UInt8} (hcount : count ≠ 0) (h : D.AtRest s) (cmd : UInt8) :
    ∃ s', (∀ {α : Type} (a : α) (f : PortProg α),
        D.run (do
          if (← ataWaitBusy) < 0 then return a
          else do
            issue lba count cmd
            f) s = D.run f (D.exec (.outb ataPrimaryCmd cmd) s').2) ∧
      (D.view s').Ready ∧ (D.view s').Selected ∧ (D.view s').lba = lba % 2 ^ 28 ∧
      (D.view s').count = count.toNat ∧ (D.view s').medium = (D.view s).medium := by
  obtain ⟨s₁, hrun₁, hview₁⟩ := run_ataWaitBusy D s
  have hready : (D.view s₁).Ready := by
    rw [hview₁]
    exact ⟨rfl, h⟩
  obtain ⟨s₂, hrun₂, hview₂⟩ := run_issue D hready lba count cmd
  obtain ⟨hsel, hlba, hreg⟩ := loaded_spec (D.view s₁) lba count
  rw [← hview₂] at hsel hlba hreg
  refine ⟨s₂, ?_, by rw [hview₂]; exact hready, hsel, hlba, count_of_ne_zero hreg hcount, ?_⟩
  · intro α a f
    rw [D.run_bind, hrun₁]
    change D.run (issue lba count cmd >>= _) s₁ = _
    rw [D.run_bind, hrun₂]
  · rw [hview₂, ← show (D.view s₁).medium = (D.view s).medium by rw [hview₁]]
    rfl

/-- A read from a drive that is at rest. -/
theorem run_ataReadSectors (lba : Nat) {count : UInt8} (hcount : count ≠ 0) (buf : Nat → UInt8)
    (h : D.AtRest s) :
    ∃ r s', D.run (ataReadSectors lba count buf) s = (r, s') ∧
      (D.view s').medium = (D.view s).medium ∧
      ReadEnd (D.view s).medium (D.view s').phase (lba % 2 ^ 28) count.toNat 0 buf count r := by
  obtain ⟨s₂, hsetup, hready, hsel, hlba, hreg, hmedium₂⟩ := run_prefix D lba hcount h ataCmdRead
  have hread := D.read s₂ hready hsel
  have hmedium := hread.medium.trans hmedium₂
  have hphase := hread.phase
  rw [hlba, hreg] at hphase
  obtain ⟨r, s', hrun, hmedium', hend⟩ := run_readSectors D count _ count.toNat 0 buf
    (fun _ => hphase) fun h0 => absurd (UInt8.toNat_inj.mp h0) hcount
  refine ⟨r, s', ?_, hmedium'.trans hmedium, ?_⟩
  · unfold ataReadSectors
    rw [if_neg hcount]
    exact (hsetup _ _).trans hrun
  · rw [Nat.zero_mul, hmedium] at hend
    exact hend

/-! ## Writing -/

/-- The words of one sector. -/
theorem run_writeWords {lba left n i : Nat} {words : List UInt16} (buf : Nat → UInt8) (base : Nat)
    (hbusy : (D.view s).busy = 0) (hphase : (D.view s).phase = .dataOut lba left words)
    (hlen : words.length = i) (hi : i + n = 256) (hn : n ≠ 0) :
    ∃ s', D.run (writeWords buf base n i) s = ((), s') ∧
      (D.view s').Stores (D.view s).medium lba left
        (words ++ (List.range n).map fun j => wordAt buf (base + (i + j) * 2)) := by
  induction n generalizing i s words with
  | zero => exact absurd rfl hn
  | succ n ih =>
      have htake := D.dataOut s (wordAt buf (base + i * 2)) lba left words hbusy hphase (by omega)
      unfold writeWords
      rw [D.run_outw_bind]
      rw [List.range_succ_eq_map, List.map_cons, List.map_map, ← List.singleton_append,
        ← List.append_assoc]
      by_cases hlast : i + 1 = 256
      · obtain rfl : n = 0 := by omega
        refine ⟨_, rfl, ?_⟩
        have hfull := htake.full (by simp [hlen, hlast])
        simpa using hfull
      · obtain ⟨hmedium, hbusy', hphase'⟩ := htake.more (by simp [hlen]; omega)
        obtain ⟨s', hrun, hstores⟩ := ih (i := i + 1) hbusy' hphase' (by simp [hlen]) (by omega)
          (by omega)
        refine ⟨s', hrun, ?_⟩
        rw [hmedium] at hstores
        simpa [Function.comp_def, Nat.add_assoc, Nat.add_comm 1] using hstores

/-- The sectors from `lba` on hold the data, `n` of them. -/
def Holds (medium : Nat → Sector) (lba n : Nat) (data : Nat → UInt8) : Prop :=
  ∀ i < n, ∀ b < ataSectorSize, medium (lba + i) b = data (i * ataSectorSize + b)

/-- How a write of `n` sectors ends. A sector `j` that the drive cannot store is reported unless it
is the last one. -/
inductive WriteEnd (medium : Nat → Sector) (v' : View) (lba n : Nat) (data : Nat → UInt8)
    (count : UInt8) : Int → Prop
  | done (hphase : v'.phase = .idle false) (hdata : Holds v'.medium lba n data)
      (hkeep : ∀ l, l < lba ∨ lba + n ≤ l → v'.medium l = medium l) :
      WriteEnd medium v' lba n data count (count.toNat * ataSectorSize)
  | error {r : Int} (j : Nat) (hj : j < n) (hphase : v'.phase = .idle true)
      (hdata : Holds v'.medium lba j data)
      (hkeep : ∀ l, l < lba ∨ lba + j < l → v'.medium l = medium l)
      (hr : r = -1 ∨ (j + 1 = n ∧ r = count.toNat * ataSectorSize)) :
      WriteEnd medium v' lba n data count r

theorem sectorOf_words (buf : Nat → UInt8) (base : Nat) {b : Nat} (hb : b < ataSectorSize) :
    sectorOf ((List.range 256).map fun j => wordAt buf (base + j * 2)) b = buf (base + b) := by
  have hlt : b / 2 < 256 := by
    unfold ataSectorSize at hb
    omega
  have hget : ((List.range 256).map fun j => wordAt buf (base + j * 2)).getD (b / 2) 0 =
      wordAt buf (base + b / 2 * 2) := by
    rw [List.getD_eq_getElem _ _ (by simpa using hlt)]
    simp
  unfold sectorOf
  rw [hget]
  split
  · next heven =>
      rw [wordAt_low]
      congr 1
      omega
  · next hodd =>
      rw [wordAt_high]
      congr 1
      omega

theorem run_writeWords_sector {lba left : Nat} (buf : Nat → UInt8) (base : Nat)
    (hbusy : (D.view s).busy = 0) (hphase : (D.view s).phase = .dataOut lba left []) :
    ∃ s', D.run (writeWords buf base 256 0) s = ((), s') ∧
      (D.view s').Stores (D.view s).medium lba left
        ((List.range 256).map fun j => wordAt buf (base + j * 2)) := by
  obtain ⟨s', hrun, hstores⟩ :=
    run_writeWords D (n := 256) (i := 0) buf base hbusy hphase rfl rfl (by decide)
  simp only [List.nil_append, Nat.zero_add] at hstores
  exact ⟨s', hrun, hstores⟩

/-- One more sector in front, which the drive has stored. -/
theorem WriteEnd.succ {medium : Nat → Sector} {v' : View} {lba n : Nat} {data : Nat → UInt8}
    {count : UInt8} {r : Int} {sec : Sector} (hsec : ∀ b < ataSectorSize, sec b = data b)
    (h : WriteEnd (Function.update medium lba sec) v' (lba + 1) n
      (fun i => data (ataSectorSize + i)) count r) :
    WriteEnd medium v' lba (n + 1) data count r := by
  have hfirst : (∀ l, l < lba + 1 → v'.medium l = Function.update medium lba sec l) →
      ∀ m, Holds v'.medium (lba + 1) m (fun i => data (ataSectorSize + i)) →
        Holds v'.medium lba (m + 1) data := by
    intro hkeep m hdata i hi b hb
    cases i with
    | zero =>
        rw [Nat.add_zero, hkeep lba (by omega), Function.update_self, Nat.zero_mul, Nat.zero_add]
        exact hsec b hb
    | succ i =>
        rw [show lba + (i + 1) = lba + 1 + i by omega, hdata i (by omega) b hb,
          Nat.add_one_mul, Nat.add_comm _ ataSectorSize, Nat.add_assoc]
  have hother : ∀ l, l ≠ lba → Function.update medium lba sec l = medium l := fun l hl =>
    Function.update_of_ne hl sec medium
  cases h with
  | done hphase hdata hkeep =>
      refine .done hphase (hfirst (fun l hl => hkeep l (.inl hl)) n hdata) fun l hl => ?_
      rw [hkeep l (by omega), hother l (by omega)]
  | error j hj hphase hdata hkeep hr =>
      refine .error (j + 1) (by omega) hphase (hfirst (fun l hl => hkeep l (.inl hl)) j hdata)
        (fun l hl => ?_) ?_
      · rw [hkeep l (by omega), hother l (by omega)]
      · omega

/-- The drive has given up at the first sector. -/
theorem WriteEnd.gaveUp {medium : Nat → Sector} {v' : View} {lba n : Nat} {data : Nat → UInt8}
    {count : UInt8} {r : Int} (hn : 0 < n) (hphase : v'.phase = .idle true)
    (hkeep : ∀ l, l ≠ lba → v'.medium l = medium l)
    (hr : r = -1 ∨ (1 = n ∧ r = count.toNat * ataSectorSize)) :
    WriteEnd medium v' lba n data count r :=
  .error 0 hn hphase (fun _ hi => absurd hi (Nat.not_lt_zero _)) (fun l hl => hkeep l (by omega))
    (hr.imp_right fun h => ⟨(Nat.zero_add 1).trans h.1, h.2⟩)

/-- Behind the last sector only `BSY` is looked at. -/
theorem run_writeSectors_zero (count : UInt8) (buf : Nat → UInt8) (k : Nat) :
    ∃ s', D.run (writeSectors count buf 0 k) s = ((count.toNat * ataSectorSize : Int), s') ∧
      D.view s' = { D.view s with busy := 0 } := by
  obtain ⟨s', hrun, hview⟩ := run_ataWaitBusy D s
  refine ⟨s', ?_, hview⟩
  unfold writeSectors
  rw [D.run_bind, hrun]
  rfl

theorem run_writeSectors_error (count : UInt8) (buf : Nat → UInt8) (n k : Nat)
    (hphase : (D.view s).phase = .idle true) :
    ∃ s', D.run (writeSectors count buf (n + 1) k) s = (-1, s') ∧
      D.view s' = { D.view s with busy := 0 } := by
  obtain ⟨s', hrun, hview⟩ := run_ataWaitDrq_error D hphase
  refine ⟨s', ?_, hview⟩
  unfold writeSectors
  rw [D.run_bind, hrun]
  rfl

theorem run_writeSectors (count : UInt8) (buf : Nat → UInt8) (lba n k : Nat)
    (hnext : n ≠ 0 → (D.view s).GoesOn (.dataOut lba n []))
    (hdone : n = 0 → (D.view s).phase = .idle false) :
    ∃ r s', D.run (writeSectors count buf n k) s = (r, s') ∧
      WriteEnd (D.view s).medium (D.view s') lba n (fun i => buf (k * ataSectorSize + i)) count r := by
  induction n generalizing lba k s with
  | zero =>
      obtain ⟨s', hrun, hview⟩ := run_writeSectors_zero D (s := s) count buf k
      refine ⟨_, s', hrun, .done ?_ (fun i hi => absurd hi (by omega)) fun l _ => ?_⟩
      · rw [hview]
        exact hdone rfl
      · rw [hview]
  | succ n ih =>
      obtain hphase | hphase := hnext (by omega)
      · obtain ⟨s₁, hrun₁, hview₁⟩ := run_ataWaitDrq_asks D (s := s) (by rw [hphase]; rfl)
        have hbusy₁ : (D.view s₁).busy = 0 := by rw [hview₁]
        have hphase₁ : (D.view s₁).phase = .dataOut lba (n + 1) [] := by rw [hview₁, ← hphase]
        obtain ⟨s₂, hrun₂, hstores⟩ :=
          run_writeWords_sector D buf (k * ataSectorSize) hbusy₁ hphase₁
        have hunfold : D.run (writeSectors count buf (n + 1) k) s =
            D.run (writeSectors count buf n (k + 1)) s₂ := by
          rw [writeSectors, D.run_bind, hrun₁]
          change D.run (writeWords buf (k * ataSectorSize) 256 0 >>= _) s₁ = _
          rw [D.run_bind, hrun₂]
        have hmedium₁ : (D.view s₁).medium = (D.view s).medium := by rw [hview₁]
        rw [hunfold]
        cases hstores with
        | done hmedium hphase₂ =>
            rw [hmedium₁] at hmedium
            obtain ⟨r, s', hrun, hend⟩ := ih (s := s₂) (lba + 1) (k + 1)
              (fun h0 => .inl (by rw [hphase₂, if_neg (by omega)]; rfl))
              (fun h0 => by rw [hphase₂, if_pos (by omega)])
            refine ⟨r, s', hrun, ?_⟩
            rw [hmedium, Nat.add_one_mul] at hend
            refine WriteEnd.succ (fun b hb => sectorOf_words buf _ hb) ?_
            simpa only [Nat.add_assoc] using hend
        | error hmedium hphase₂ =>
            rw [hmedium₁] at hmedium
            cases n with
            | zero =>
                obtain ⟨s', hrun, hview⟩ := run_writeSectors_zero D (s := s₂) count buf (k + 1)
                refine ⟨_, s', hrun, .gaveUp Nat.one_pos ?_ ?_ (.inr ⟨rfl, rfl⟩)⟩
                · rw [hview]
                  exact hphase₂
                · rw [hview]
                  exact hmedium
            | succ n =>
                obtain ⟨s', hrun, hview⟩ := run_writeSectors_error D count buf n (k + 1) hphase₂
                refine ⟨_, s', hrun, .gaveUp (Nat.succ_pos _) ?_ ?_ (.inl rfl)⟩
                · rw [hview]
                  exact hphase₂
                · rw [hview]
                  exact hmedium
      · obtain ⟨s', hrun, hview⟩ := run_writeSectors_error D count buf n k hphase
        refine ⟨-1, s', hrun, .gaveUp (Nat.succ_pos _) ?_ ?_ (.inl rfl)⟩
        · rw [hview]
          exact hphase
        · rw [hview]
          exact fun _ _ => rfl

/-- A write to a drive that is at rest. -/
theorem run_ataWriteSectors (lba : Nat) {count : UInt8} (hcount : count ≠ 0) (buf : Nat → UInt8)
    (h : D.AtRest s) :
    ∃ r s', D.run (ataWriteSectors lba count buf) s = (r, s') ∧
      WriteEnd (D.view s).medium (D.view s') (lba % 2 ^ 28) count.toNat buf count r := by
  obtain ⟨s₂, hsetup, hready, hsel, hlba, hreg, hmedium₂⟩ := run_prefix D lba hcount h ataCmdWrite
  have hwrite := D.write s₂ hready hsel
  have hmedium := hwrite.medium.trans hmedium₂
  have hphase := hwrite.phase
  rw [hlba, hreg] at hphase
  obtain ⟨r, s', hrun, hend⟩ := run_writeSectors D count buf _ count.toNat 0
    (fun _ => hphase) fun h0 => absurd (UInt8.toNat_inj.mp h0) hcount
  refine ⟨r, s', ?_, ?_⟩
  · unfold ataWriteSectors
    rw [if_neg hcount]
    exact (hsetup _ _).trans hrun
  · simpa only [Nat.zero_mul, Nat.zero_add, hmedium] using hend

end SRos.Ata
