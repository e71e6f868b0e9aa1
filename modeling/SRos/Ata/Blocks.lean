import SRos.Ata.Emulated
import SRos.Ata.Transfer

/-!
# Blocks on a drive (`src/fs/ramdisk.c`)

A block is eight sectors in a row, and the disk is the first 1024 blocks of the drive. A read that
fails gives zeros; a write that fails leaves the block with new sectors in front, one sector that
holds anything, and old sectors behind.
-/

namespace SRos.Ata

open Bytes

variable {σ : Type} (D : Drive σ) {s : σ} {b : Nat}

/-! ## Sectors -/

/-- On a drive without errors, sectors that are written are read back, and no other sector changes.
Of a sector address the 28 low bits count. -/
theorem read_back (hD : D.Flawless) (h : D.AtRest s) (lba : Nat) {count : UInt8} (hcount : count ≠ 0)
    (data buf : Nat → UInt8) :
    ∃ s₁ s₂, D.run (ataWriteSectors lba count data) s = ((count.toNat * ataSectorSize : Int), s₁) ∧
      D.run (ataReadSectors lba count buf) s₁ =
        (((count.toNat * ataSectorSize : Int), splice buf 0 (count.toNat * ataSectorSize) data), s₂) ∧
      ∀ l, l < lba % 2 ^ 28 ∨ lba % 2 ^ 28 + count.toNat ≤ l →
        (D.view s₂).medium l = (D.view s).medium l := by
  obtain ⟨r, s₁, hrun₁, hwrite⟩ := run_ataWriteSectors D lba hcount data h
  cases hwrite with
  | error j _ hphase _ _ _ => exact absurd hphase (hD s₁)
  | done hphase hdata hkeep =>
      have hrest₁ : D.AtRest s₁ := by
        unfold Drive.AtRest
        rw [hphase]
        rfl
      obtain ⟨q, s₂, hrun₂, hmedium, hread⟩ := run_ataReadSectors D lba hcount buf hrest₁
      cases hread with
      | error hphase₂ _ => exact absurd hphase₂ (hD s₂)
      | done hphase₂ =>
          refine ⟨s₁, s₂, hrun₁, ?_, fun l hl => by rw [hmedium, hkeep l hl]⟩
          have hbytes : splice buf 0 (count.toNat * ataSectorSize)
              (bytesFrom (D.view s₁).medium (lba % 2 ^ 28)) =
                splice buf 0 (count.toNat * ataSectorSize) data := splice_congr fun i hi => by
            have hlt : i / ataSectorSize < count.toNat :=
              Nat.div_lt_of_lt_mul (by rwa [Nat.mul_comm])
            have hindex : i / ataSectorSize * ataSectorSize + i % ataSectorSize = i := by
              rw [Nat.mul_comm]
              exact Nat.div_add_mod i ataSectorSize
            exact (hdata _ hlt _ (Nat.mod_lt i (by decide))).trans (congrArg data hindex)
          rw [hrun₂, hbytes]

theorem read_back_last :
    ∃ s₁ s₂, (emulated []).run (ataWriteSectors (2 ^ 28 - 2) 2 fun i => UInt8.ofNat i) (blank []) =
        (1024, s₁) ∧
      (emulated []).run (ataReadSectors (2 ^ 28 - 2) 2 fun _ => 0) s₁ =
        ((1024, splice (fun _ => 0) 0 1024 fun i => UInt8.ofNat i), s₂) ∧
      ∀ l, l < (2 ^ 28 - 2) % 2 ^ 28 ∨ (2 ^ 28 - 2) % 2 ^ 28 + 2 ≤ l →
        ((emulated []).view s₂).medium l = ((emulated []).view (blank [])).medium l := by
  have hrest : (emulated []).AtRest (blank []) := rfl
  exact read_back (emulated []) emulated_flawless hrest (2 ^ 28 - 2) (by decide) _ _

/-! ## Blocks -/

/-- The bytes of a block as the sectors hold them. -/
def blockOf (medium : Nat → Sector) (b : Nat) : Nat → UInt8 := fun i =>
  if i < blockSize then bytesFrom medium (b * 8) i else 0

theorem lba_block (hb : b < diskBlocks) : u32 (b * sectorsPerBlock.toNat) % 2 ^ 28 = b * 8 := by
  unfold diskBlocks at hb
  change (b * 8) % 2 ^ 32 % 2 ^ 28 = b * 8
  omega

/-- A block read ends with the block in the buffer, or with zeros if the drive has given up. -/
theorem run_blockRead (hb : b < diskBlocks) (buf : Nat → UInt8) (h : D.AtRest s) :
    ∃ buf' s', D.run (blockRead b buf) s = (buf', s') ∧ D.AtRest s' ∧
      (D.view s').medium = (D.view s).medium ∧
      (buf' = splice buf 0 blockSize (blockOf (D.view s).medium b) ∨
        ((D.view s').phase = .idle true ∧ buf' = splice buf 0 blockSize fun _ => 0)) := by
  obtain ⟨r, s', hrun, hmedium, hend⟩ := run_ataReadSectors D
    (u32 (b * sectorsPerBlock.toNat)) (show sectorsPerBlock ≠ 0 by decide) buf h
  rw [lba_block hb] at hend
  unfold blockRead
  rw [if_neg (by omega), D.run_bind, hrun]
  cases hend with
  | done hphase =>
      refine ⟨_, s', rfl, ?_, hmedium, .inl ?_⟩
      · unfold Drive.AtRest
        rw [hphase]
        rfl
      · exact splice_congr fun i hi => (if_pos hi).symm
  | error hphase hbuf =>
      refine ⟨_, s', rfl, ?_, hmedium, .inr ⟨hphase, ?_⟩⟩
      · unfold Drive.AtRest
        rw [hphase]
        rfl
      · funext i
        by_cases hi : i < blockSize
        · rw [if_pos hi]
          exact (if_pos ⟨Nat.zero_le i, by omega⟩).symm
        · rw [if_neg hi, splice_outside (by omega)]
          exact hbuf i (.inr (Nat.le_of_not_lt hi))

theorem run_blockWrite (hb : b < diskBlocks) (buf : Nat → UInt8) (h : D.AtRest s) :
    ∃ r s', D.run (blockWrite b buf) s = ((), s') ∧
      WriteEnd (D.view s).medium (D.view s') (b * 8) 8 buf sectorsPerBlock r := by
  obtain ⟨r, s', hrun, hend⟩ := run_ataWriteSectors D
    (u32 (b * sectorsPerBlock.toNat)) (show sectorsPerBlock ≠ 0 by decide) buf h
  rw [lba_block hb] at hend
  refine ⟨r, s', ?_, hend⟩
  unfold blockWrite
  rw [if_neg (by omega), D.run_bind, hrun]
  rfl

theorem WriteEnd.atRest {medium : Nat → Sector} {lba n : Nat} {data : Nat → UInt8} {count : UInt8}
    {r : Int} {s' : σ} (h : WriteEnd medium (D.view s') lba n data count r) : D.AtRest s' := by
  unfold Drive.AtRest
  cases h with
  | done hphase _ _ =>
      rw [hphase]
      rfl
  | error _ _ hphase _ _ _ =>
      rw [hphase]
      rfl

/-- Only the sectors that are written can change. -/
theorem WriteEnd.keep {medium : Nat → Sector} {v' : View} {lba n l : Nat} {data : Nat → UInt8}
    {count : UInt8} {r : Int} (h : WriteEnd medium v' lba n data count r)
    (hl : l < lba ∨ lba + n ≤ l) : v'.medium l = medium l := by
  cases h with
  | done _ _ hkeep => exact hkeep l hl
  | error j hj _ _ hkeep _ => exact hkeep l (by omega)

theorem blockOf_congr {medium medium' : Nat → Sector}
    (h : ∀ l, b * 8 ≤ l → l < b * 8 + 8 → medium' l = medium l) :
    blockOf medium' b = blockOf medium b := by
  funext i
  unfold blockOf
  split
  · next hi =>
      unfold bytesFrom
      have hdiv : i / ataSectorSize < 8 := by
        unfold blockSize at hi
        unfold ataSectorSize
        omega
      rw [h _ (Nat.le_add_right _ _) (Nat.add_lt_add_left hdiv _)]
  · rfl

/-- The bytes in front of the sector that was lost are new, and those behind it are old. -/
theorem WriteEnd.blockOf {medium : Nat → Sector} {v' : View} {data : Nat → UInt8} {count : UInt8}
    {r : Int} (h : WriteEnd medium v' (b * 8) 8 data count r) :
    ∃ j ≤ 8, (v'.phase ≠ .idle true → j = 8) ∧ ∀ i < blockSize,
      (i < j * ataSectorSize → Ata.blockOf v'.medium b i = data i) ∧
      ((j + 1) * ataSectorSize ≤ i → Ata.blockOf v'.medium b i = Ata.blockOf medium b i) := by
  have hsector : ∀ i, i / ataSectorSize * ataSectorSize + i % ataSectorSize = i := fun i => by
    rw [Nat.mul_comm]
    exact Nat.div_add_mod i ataSectorSize
  have hmod : ∀ i, i % ataSectorSize < ataSectorSize := fun i => Nat.mod_lt i (by decide)
  have hnew : ∀ m, Holds v'.medium (b * 8) m data → ∀ i < blockSize, i < m * ataSectorSize →
      Ata.blockOf v'.medium b i = data i := by
    intro m hdata i hi him
    unfold Ata.blockOf
    rw [if_pos hi]
    have hlt : i / ataSectorSize < m := Nat.div_lt_of_lt_mul (by rwa [Nat.mul_comm])
    exact (hdata _ hlt _ (hmod i)).trans (congrArg data (hsector i))
  cases h with
  | done hphase hdata hkeep =>
      refine ⟨8, le_refl 8, fun _ => rfl, fun i hi => ⟨hnew 8 hdata i hi, fun hle => ?_⟩⟩
      unfold blockSize at hi
      unfold ataSectorSize at hle
      omega
  | error j hj hphase hdata hkeep _ =>
      refine ⟨j, by omega, fun h => absurd hphase h, fun i hi => ⟨hnew j hdata i hi, fun hle => ?_⟩⟩
      have hdiv : j + 1 ≤ i / ataSectorSize := (Nat.le_div_iff_mul_le (by decide)).mpr hle
      unfold Ata.blockOf bytesFrom
      rw [if_pos hi, if_pos hi, hkeep _ (by omega)]

/-! ## Runs of requests -/

inductive BlockReq
  | read (blockNo : Nat) (buf : Nat → UInt8)
  | write (blockNo : Nat) (buf : Nat → UInt8)

def BlockReq.prog : BlockReq → PortProg (Nat → UInt8)
  | .read b buf => blockRead b buf
  | .write b buf => do
      blockWrite b buf
      return buf

def BlockReq.writes (b : Nat) : BlockReq → Bool
  | .read _ _ => false
  | .write c _ => c = b

def serve (s : σ) (r : BlockReq) : σ := (D.run r.prog s).2

/-- A request leaves the drive at rest, and changes no block but the one it writes. -/
theorem serve_spec (r : BlockReq) (h : D.AtRest s) :
    D.AtRest (serve D s r) ∧
      ∀ c < diskBlocks, r.writes c = false →
        blockOf (D.view (serve D s r)).medium c = blockOf (D.view s).medium c := by
  unfold serve
  cases r with
  | read b buf =>
      by_cases hb : b < diskBlocks
      · obtain ⟨buf', s', hrun, hrest, hmedium, -⟩ := run_blockRead D hb buf h
        change D.AtRest (D.run (blockRead b buf) s).2 ∧ ∀ c < diskBlocks, _ →
          blockOf (D.view (D.run (blockRead b buf) s).2).medium c = _
        rw [hrun]
        exact ⟨hrest, fun c _ _ => by rw [hmedium]⟩
      · have hskip : blockRead b buf = .ret buf := if_pos (Nat.le_of_not_lt hb)
        change D.AtRest (D.run (blockRead b buf) s).2 ∧ ∀ c < diskBlocks, _ →
          blockOf (D.view (D.run (blockRead b buf) s).2).medium c = _
        rw [hskip]
        exact ⟨h, fun _ _ _ => rfl⟩
  | write b buf =>
      have hstate : (D.run (BlockReq.write b buf).prog s).2 = (D.run (blockWrite b buf) s).2 := by
        change (D.run (blockWrite b buf >>= fun _ => .ret buf) s).2 = _
        rw [D.run_bind]
        rfl
      rw [hstate]
      by_cases hb : b < diskBlocks
      · obtain ⟨r, s', hrun, hend⟩ := run_blockWrite D hb buf h
        rw [hrun]
        refine ⟨hend.atRest D, fun c _ hc => blockOf_congr fun l hlow hhigh => hend.keep ?_⟩
        have hne : b ≠ c := by simpa [BlockReq.writes] using hc
        omega
      · have hskip : blockWrite b buf = .ret () := if_pos (Nat.le_of_not_lt hb)
        rw [hskip]
        exact ⟨h, fun _ _ _ => rfl⟩

end SRos.Ata
