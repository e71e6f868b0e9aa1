import SRos.Fs.Image

/-!
# Directories

The entries of a directory are numbered through its blocks. `sfs_lookup` returns the first live
entry with a name. `addDentry` overwrites the first free entry, and when there is none it gives
the directory a new block.
-/

namespace SRos.Fs

open Bytes

/-- The entry fits the packed structure. -/
structure Dentry.Packed (d : Dentry) : Prop where
  ino_lt : d.ino < 2 ^ 32
  name_end : ∀ i, maxFilename ≤ i → d.name i = 0

theorem Dentry.packed_decode (block : Buf) (off : Nat) : (Dentry.decode block off).Packed where
  ino_lt := load32_lt _ _
  name_end := fun _ hi => if_neg (by omega)

theorem Dentry.Packed.assign {d : Dentry} (h : d.Packed) {ino : Nat} (hino : ino < 2 ^ 32)
    (name : CStr) : (d.assign ino name).Packed where
  ino_lt := hino
  name_end := by
    intro i hi
    have hlast : maxFilename - 1 < maxFilename := by decide
    simp only [Dentry.assign]
    rw [if_neg (by omega), if_neg (by omega)]
    exact h.name_end i hi

/-- An entry that is written is read back. -/
theorem Dentry.decode_splice {d : Dentry} (h : d.Packed) (block : Buf) (off : Nat) :
    Dentry.decode (splice block off dentryBytes d.encode) off = d := by
  have hbyte : ∀ i, i < dentryBytes →
      splice block off dentryBytes d.encode (off + i) = d.encode i := by
    intro i hi
    exact splice_inside hi
  have hino : load32 (splice block off dentryBytes d.encode) off = d.ino := by
    apply load32_of_bytes h.ino_lt
    intro k hk
    rw [hbyte k (by unfold dentryBytes; omega)]
    exact if_pos hk
  have hname : (fun i => if i < maxFilename then
      splice block off dentryBytes d.encode (off + 4 + i) else 0) = d.name := by
    funext i
    split
    · next hi =>
        have hi28 : i < 28 := hi
        rw [Nat.add_assoc, hbyte (4 + i) (by unfold dentryBytes; omega)]
        unfold encode
        rw [if_neg (by omega), Nat.add_sub_cancel_left]
    · next hi => exact (h.name_end i (by omega)).symm
  unfold decode
  rw [hino, hname]

/-- An entry depends on its 32 bytes only. -/
theorem Dentry.decode_bytes {block block' : Buf} {off off' : Nat}
    (h : ∀ i < dentryBytes, block' (off' + i) = block (off + i)) :
    Dentry.decode block' off' = Dentry.decode block off := by
  have hbytes : dentryBytes = 32 := rfl
  rw [hbytes] at h
  have hino : load32 block' off' = load32 block off := by
    unfold load32
    rw [h 1 (by omega), h 2 (by omega), h 3 (by omega)]
    have h₀ := h 0 (by omega)
    simp only [Nat.add_zero] at h₀
    rw [h₀]
  have hname : (fun i => if i < maxFilename then block' (off' + 4 + i) else 0) =
      fun i => if i < maxFilename then block (off + 4 + i) else 0 := by
    funext i
    split
    · next hi =>
        have hi28 : i < 28 := hi
        rw [Nat.add_assoc, Nat.add_assoc]
        exact h (4 + i) (by omega)
    · rfl
  unfold decode
  rw [hino, hname]

theorem Dentry.decode_congr {block block' : Buf} {off : Nat}
    (h : ∀ i, off ≤ i → i < off + dentryBytes → block' i = block i) :
    Dentry.decode block' off = Dentry.decode block off := by
  apply decode_bytes
  intro i hi
  exact h (off + i) (by omega) (by omega)

/-- The `k`-th entry of a directory. -/
def slot (g : Image) (dir : Inode) (k : Nat) : Dentry :=
  Dentry.decode (g.data (dir.blocks (k / dentriesPerBlock)))
    (k % dentriesPerBlock * dentryBytes)

def slotCount (dir : Inode) : Nat := dentriesPerBlock * dir.blockCount

theorem slot_block (g : Image) (dir : Inode) {di : Nat} (bi : Nat)
    (hdi : di < dentriesPerBlock) :
    slot g dir (dentriesPerBlock * bi + di) =
      Dentry.decode (g.data (dir.blocks bi)) (di * dentryBytes) := by
  have hper : dentriesPerBlock = 128 := rfl
  unfold slot
  rw [hper] at hdi ⊢
  rw [show (128 * bi + di) / 128 = bi by omega, show (128 * bi + di) % 128 = di by omega]

variable {s s' : FsState} {dir : Inode} {name : CStr}

theorem lookupBlock_some {block : Buf} {ino : Nat} (h : lookupBlock block name = some ino) :
    ∃ di < dentriesPerBlock, (Dentry.decode block (di * dentryBytes)).matches name = true ∧
      (∀ dj < di, (Dentry.decode block (dj * dentryBytes)).matches name = false) ∧
      ino = (Dentry.decode block (di * dentryBytes)).ino := by
  obtain ⟨di, hfind, hino⟩ := Option.map_eq_some_iff.mp h
  obtain ⟨hhit, hmem, hbelow⟩ := List.find?_range_eq_some.mp hfind
  refine ⟨di, List.mem_range.mp hmem, hhit, ?_, hino.symm⟩
  intro dj hdj
  simpa using hbelow dj hdj

theorem lookupBlock_none {block : Buf} (h : lookupBlock block name = none) {di : Nat}
    (hdi : di < dentriesPerBlock) :
    (Dentry.decode block (di * dentryBytes)).matches name = false := by
  have hfind := Option.map_eq_none_iff.mp h
  simpa using List.find?_eq_none.mp hfind di (List.mem_range.mpr hdi)

/-- Every entry number from block `bi` on is one of block `bi` or one of a later block. -/
theorem slot_number_cases {k bi : Nat} (h : dentriesPerBlock * bi ≤ k) :
    (∃ di < dentriesPerBlock, k = dentriesPerBlock * bi + di) ∨
      dentriesPerBlock * (bi + 1) ≤ k := by
  have hper : dentriesPerBlock = 128 := rfl
  rw [hper] at h ⊢
  by_cases hk : k < 128 * bi + 128
  · exact .inl ⟨k - 128 * bi, by omega, by omega⟩
  · exact .inr (by omega)

/-- The outer loop finds the first live entry with the name. -/
theorem lookupLoop_some (hdata : dir.OnData) {n bi ino : Nat} {block : Buf}
    (hn : bi + n = dir.blockCount) (h : lookupLoop s dir name n bi block = some ino) :
    ∃ k, k < slotCount dir ∧ (slot (image s.disk) dir k).matches name = true ∧
      (∀ j, dentriesPerBlock * bi ≤ j → j < k →
        (slot (image s.disk) dir j).matches name = false) ∧
      ino = (slot (image s.disk) dir k).ino := by
  have hper : dentriesPerBlock = 128 := rfl
  induction n generalizing bi block with
  | zero => simp [lookupLoop] at h
  | succ n ih =>
      rw [lookupLoop, blockRead_data (hdata bi (by omega))] at h
      split at h
      · next found hblock =>
          obtain rfl := Option.some.inj h
          obtain ⟨di, hdi, hhit, hbelow, hino⟩ := lookupBlock_some hblock
          refine ⟨dentriesPerBlock * bi + di, ?_, ?_, ?_, ?_⟩
          · unfold slotCount
            rw [hper] at hdi ⊢
            omega
          · rwa [slot_block _ _ _ hdi]
          · intro j hj hjk
            obtain ⟨dj, hdj, rfl⟩ | hlater := slot_number_cases hj
            · rw [slot_block _ _ _ hdj]
              exact hbelow dj (by omega)
            · rw [Nat.mul_add] at hlater
              omega
          · rwa [slot_block _ _ _ hdi]
      · next hblock =>
          obtain ⟨k, hk, hhit, hbelow, hino⟩ := ih (by omega) h
          refine ⟨k, hk, hhit, ?_, hino⟩
          intro j hj hjk
          obtain ⟨dj, hdj, rfl⟩ | hlater := slot_number_cases hj
          · rw [slot_block _ _ _ hdj]
            exact lookupBlock_none hblock hdj
          · exact hbelow j hlater hjk

theorem lookupLoop_none (hdata : dir.OnData) {n bi : Nat} {block : Buf}
    (hn : bi + n = dir.blockCount) (h : lookupLoop s dir name n bi block = none) {k : Nat}
    (hlo : dentriesPerBlock * bi ≤ k) (hk : k < slotCount dir) :
    (slot (image s.disk) dir k).matches name = false := by
  induction n generalizing bi block with
  | zero =>
      unfold slotCount at hk
      rw [← hn, Nat.add_zero] at hk
      omega
  | succ n ih =>
      rw [lookupLoop, blockRead_data (hdata bi (by omega))] at h
      split at h
      · cases h
      · next hblock =>
          obtain ⟨di, hdi, rfl⟩ | hlater := slot_number_cases hlo
          · rw [slot_block _ _ _ hdi]
            exact lookupBlock_none hblock hdi
          · exact ih (by omega) h hlater

theorem freeInBlock_inl {block : Buf} {n di di' : Nat} {d d' : Dentry}
    (h : freeInBlock block n di d = .inl (di', d')) :
    di ≤ di' ∧ di' < di + n ∧ d' = Dentry.decode block (di' * dentryBytes) ∧ d'.ino = 0 ∧
      ∀ dj, di ≤ dj → dj < di' → (Dentry.decode block (dj * dentryBytes)).ino ≠ 0 := by
  induction n generalizing di d with
  | zero => simp [freeInBlock] at h
  | succ n ih =>
      rw [freeInBlock] at h
      split at h
      · next hzero =>
          simp only [Sum.inl.injEq, Prod.mk.injEq] at h
          obtain ⟨rfl, rfl⟩ := h
          refine ⟨le_rfl, by omega, rfl, hzero, ?_⟩
          intro dj hlo hhi
          omega
      · next hne =>
          obtain ⟨hlo, hhi, hd, hzero, hbelow⟩ := ih h
          refine ⟨by omega, by omega, hd, hzero, ?_⟩
          intro dj hdj hdj'
          by_cases heq : dj = di
          · rwa [heq]
          · exact hbelow dj (by omega) hdj'

/-- A block without a free entry, and the last entry of it. -/
theorem freeInBlock_inr {block : Buf} {n di : Nat} {d d' : Dentry}
    (h : freeInBlock block n di d = .inr d') :
    (∀ dj, di ≤ dj → dj < di + n → (Dentry.decode block (dj * dentryBytes)).ino ≠ 0) ∧
      (n ≠ 0 → d' = Dentry.decode block ((di + n - 1) * dentryBytes)) := by
  induction n generalizing di d with
  | zero =>
      refine ⟨?_, by simp⟩
      intro dj hlo hhi
      omega
  | succ n ih =>
      rw [freeInBlock] at h
      split at h
      · cases h
      · next hne =>
          obtain ⟨hlive, hlast⟩ := ih h
          constructor
          · intro dj hlo hhi
            by_cases heq : dj = di
            · rwa [heq]
            · exact hlive dj (by omega) (by omega)
          · intro _
            cases n with
            | zero =>
                simp only [freeInBlock, Sum.inr.injEq] at h
                rw [← h]
                rfl
            | succ n =>
                rw [hlast (by omega)]
                congr 2
                omega

/-- The search stops at the first free entry. -/
theorem freeLoop_inl (hdata : dir.OnData) {n bi : Nat} {block : Buf} {d : Dentry} {r : Slot}
    (hn : bi + n = dir.blockCount) (h : freeLoop s dir n bi block d = .inl r) :
    r.bi < dir.blockCount ∧ r.di < dentriesPerBlock ∧
      r.block = (image s.disk).data (dir.blocks r.bi) ∧
      r.d = slot (image s.disk) dir (dentriesPerBlock * r.bi + r.di) ∧ r.d.ino = 0 ∧
      dentriesPerBlock * bi ≤ dentriesPerBlock * r.bi + r.di ∧
      ∀ j, dentriesPerBlock * bi ≤ j → j < dentriesPerBlock * r.bi + r.di →
        (slot (image s.disk) dir j).ino ≠ 0 := by
  induction n generalizing bi block d with
  | zero => simp [freeLoop] at h
  | succ n ih =>
      rw [freeLoop, blockRead_data (hdata bi (by omega))] at h
      split at h
      · next di d' hblock =>
          obtain rfl := Sum.inl.inj h
          obtain ⟨-, hdi, hd, hzero, hbelow⟩ := freeInBlock_inl hblock
          rw [Nat.zero_add] at hdi
          refine ⟨?_, hdi, rfl, ?_, hzero, Nat.le_add_right _ _, ?_⟩
          · change bi < dir.blockCount
            omega
          · rwa [slot_block _ _ _ hdi]
          · intro j hlo hhi
            dsimp only at hhi
            obtain ⟨dj, hdj, rfl⟩ | hlater := slot_number_cases hlo
            · rw [slot_block _ _ _ hdj]
              exact hbelow dj (Nat.zero_le _) (by omega)
            · rw [Nat.mul_add] at hlater
              omega
      · next d' hblock =>
          obtain ⟨hbi, hdi, hblk, hd, hzero, hle, hbelow⟩ := ih (by omega) h
          have hmono : dentriesPerBlock * bi ≤ dentriesPerBlock * (bi + 1) :=
            Nat.mul_le_mul_left _ (Nat.le_succ _)
          refine ⟨hbi, hdi, hblk, hd, hzero, by omega, ?_⟩
          intro j hlo hhi
          obtain ⟨dj, hdj, rfl⟩ | hlater := slot_number_cases hlo
          · rw [slot_block _ _ _ hdj]
            exact (freeInBlock_inr hblock).1 dj (Nat.zero_le _) (by omega)
          · exact hbelow j hlater hhi

/-- Without a free entry the search ends with the last entry of the directory. -/
theorem freeLoop_inr (hdata : dir.OnData) {n bi : Nat} {block : Buf} {d d' : Dentry}
    (hn : bi + n = dir.blockCount) (h : freeLoop s dir n bi block d = .inr d') :
    (∀ j, dentriesPerBlock * bi ≤ j → j < slotCount dir →
        (slot (image s.disk) dir j).ino ≠ 0) ∧
      (n ≠ 0 → d' = slot (image s.disk) dir (slotCount dir - 1)) := by
  have hper : dentriesPerBlock = 128 := rfl
  induction n generalizing bi block d with
  | zero =>
      refine ⟨?_, by simp⟩
      intro j hlo hhi
      unfold slotCount at hhi
      rw [← hn, Nat.add_zero] at hhi
      omega
  | succ n ih =>
      rw [freeLoop, blockRead_data (hdata bi (by omega))] at h
      split at h
      · cases h
      · next e hblock =>
          obtain ⟨hlive, hlast⟩ := ih (by omega) h
          obtain ⟨hliveBlock, hlastBlock⟩ := freeInBlock_inr hblock
          constructor
          · intro j hlo hhi
            obtain ⟨dj, hdj, rfl⟩ | hlater := slot_number_cases hlo
            · rw [slot_block _ _ _ hdj]
              exact hliveBlock dj (Nat.zero_le _) (by omega)
            · exact hlive j hlater hhi
          · intro _
            cases n with
            | zero =>
                simp only [freeLoop, Sum.inr.injEq] at h
                have hlt : dentriesPerBlock - 1 < dentriesPerBlock := by decide
                have hindex : slotCount dir - 1 = dentriesPerBlock * bi + (dentriesPerBlock - 1) := by
                  unfold slotCount
                  rw [hper]
                  omega
                rw [← h, hlastBlock (by decide), hindex, slot_block _ _ _ hlt, Nat.zero_add]
            | succ n => exact hlast (by omega)

end SRos.Fs
