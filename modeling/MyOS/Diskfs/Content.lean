import MyOS.Diskfs.Effects
import MyOS.Diskfs.Consistent

/-!
# File contents

`Fs.byte s i k` is the `k`-th byte of the file in slot `i`, read from the logical disk.
`diskfs_read_index` returns slices of it, chunk by chunk (`readLoop_data`), and on a drive that
never fails it always does (`diskfsReadIndex_eq`).
-/

namespace MyOS.Diskfs

open BlockCache

/-- The `k`-th byte of an extent that begins at `first`. -/
def diskByte (D : Disk) (first : UInt32) (k : ℕ) : UInt8 :=
  (D (first + UInt32.ofNat (k / 512))).get (k % 512)

/-- The `k`-th byte of the file in slot `i`. -/
def Fs.byte (s : Fs) (i : Fin 64) (k : ℕ) : UInt8 :=
  diskByte s.block.logical (s.tables.inodes i).firstSector k

/-- A chunk that stays in one sector is a slice of the file. -/
theorem slice_sector {D : Disk} {first : UInt32} {pos len : ℕ} (h : pos % 512 + len ≤ 512) :
    slice (D (first + UInt32.ofNat (pos / 512))).get (pos % 512) len
      = slice (diskByte D first) pos len := by
  refine slice_congr fun k hk => ?_
  unfold diskByte
  rw [show (pos + k) / 512 = pos / 512 by omega, show (pos + k) % 512 = pos % 512 + k by omega]

section ReadLoop

variable {first : UInt32} {offset size : ℕ}

theorem readLoop_moves (done : ℕ) (b : BlockLayer) :
    Moves noWrites b (readLoop first offset size done b).2 := by
  fun_induction readLoop first offset size done b with
  | case1 done b h absolute r hr => exact readSector_moves b _
  | case2 done b h absolute chunk r sector hr rest ih => exact (readSector_moves b _).trans ih
  | case3 done b h => exact .refl

variable {b : BlockLayer}

theorem readLoop_settled {done : ℕ} (hs : Settled b.cache) :
    Settled (readLoop first offset size done b).2.cache := by
  fun_induction readLoop first offset size done b with
  | case1 done b h absolute r hr => exact readSector_settled hs _
  | case2 done b h absolute chunk r sector hr rest ih => exact ih (readSector_settled hs _)
  | case3 done b h => exact hs

/-- **The chunks add up**: what is read before a sector fails is the beginning of the slice that was
asked for, and all of it if none fails. -/
theorem readLoop_data {done : ℕ} (hb : b.Ok) (hdone : done ≤ size) : ∃ n ≤ size - done,
    (readLoop first offset size done b).1.2
      = slice (diskByte b.logical first) (offset + done) n ∧
    ((readLoop first offset size done b).1.1 = true → n = size - done) := by
  fun_induction readLoop first offset size done b with
  | case1 done b h absolute r hr => exact ⟨0, Nat.zero_le _, rfl, fun h => nomatch h⟩
  | case2 done b h absolute chunk r sector hr rest ih =>
    have hmod : absolute % 512 < 512 := Nat.mod_lt _ (by decide)
    have hchunk : absolute % 512 + chunk ≤ 512 := by omega
    have hlog : r.2.logical = b.logical := Moves.logical_eq (readSector_moves b _) hb
    have hsector : sector = b.logical (first + UInt32.ofNat (absolute / 512)) :=
      readSector_eq hb hr
    obtain ⟨n, hn, hrest, hall⟩ := ih ((readSector_moves b _).ok hb) (by omega)
    refine ⟨chunk + n, by omega, ?_, fun hok => ?_⟩
    · dsimp only
      rw [hrest, hlog, hsector, slice_sector hchunk, ← Nat.add_assoc, slice_append]
    · have := hall hok
      omega
  | case3 done b h => exact ⟨0, Nat.zero_le _, rfl, fun _ => by omega⟩

theorem readLoop_verdict (done : ℕ) (hb : b.Ok)
    (hrange : first.toNat + (offset + size - 1) / 512 < 4096) :
    Verdict (readLoop first offset size done b).1.1 b (readLoop first offset size done b).2 := by
  have hsector : ∀ done < size, first + UInt32.ofNat ((offset + done) / 512) < totalSectors := by
    intro done hdone
    have : (offset + done) / 512 ≤ (offset + size - 1) / 512 :=
      Nat.div_le_div_right (by omega)
    rw [UInt32.lt_iff_toNat_lt, Word.toNat_add_ofNat (by omega)]
    exact lt_of_le_of_lt (by omega) hrange
  fun_induction readLoop first offset size done b with
  | case1 done b h absolute r hr =>
    have hv := readSector_verdict hb (hsector done h)
    rwa [hr] at hv
  | case2 done b h absolute chunk r sector hr rest ih =>
    have hv := readSector_verdict hb (hsector done h)
    rw [hr] at hv
    exact hv.trans (ih ((readSector_moves b _).ok hb))
  | case3 done b h => exact .inl ⟨rfl, rfl⟩

end ReadLoop

/-- A step on the block layer that only reads. -/
structure Reads (b b' : BlockLayer) : Prop where
  moves : Moves noWrites b b'
  settled : Settled b.cache → Settled b'.cache

theorem Reads.refl (b : BlockLayer) : Reads b b := ⟨.refl, id⟩

/-- `diskfs_read_index` only reads. -/
theorem diskfsReadIndex_reads (s : Fs) (i : Fin 64) (offset size : UInt32) :
    ∃ b, (diskfsReadIndex s i offset size).2 = { s with block := b } ∧ Reads s.block b := by
  unfold diskfsReadIndex
  by_cases h1 : (!s.available || !decide (s.tables.IsFile i)) = true
  · rw [if_pos h1]; exact ⟨s.block, rfl, .refl _⟩
  · rw [if_neg h1]
    by_cases h2 : (decide (offset ≥ (s.tables.inodes i).size) || size == 0) = true
    · rw [if_pos h2]; exact ⟨s.block, rfl, .refl _⟩
    · rw [if_neg h2]; exact ⟨_, rfl, readLoop_moves _ _, readLoop_settled⟩

variable {s : Fs} {i : Fin 64}

/-- What `diskfs_read_index` does with a file: it copies the part of the range that lies in it. -/
theorem diskfsReadIndex_spec (havail : s.available = true) (hi : s.tables.IsFile i)
    (offset size : UInt32) :
    ∃ n, n = min size.toNat ((s.tables.inodes i).size.toNat - offset.toNat) ∧
      (diskfsReadIndex s i offset size = ((true, []), s) ∧ n = 0 ∨
      offset.toNat < (s.tables.inodes i).size.toNat ∧ diskfsReadIndex s i offset size =
        ((readLoop (s.tables.inodes i).firstSector offset.toNat n 0 s.block).1,
          { s with block := (readLoop (s.tables.inodes i).firstSector offset.toNat n 0
            s.block).2 })) := by
  refine ⟨_, rfl, ?_⟩
  unfold diskfsReadIndex
  rw [if_neg (by simp [havail, hi])]
  dsimp only
  by_cases h2 : (decide (offset ≥ (s.tables.inodes i).size) || size == 0) = true
  · rw [if_pos h2]
    refine .inl ⟨rfl, ?_⟩
    rw [Bool.or_eq_true, decide_eq_true_eq, beq_iff_eq] at h2
    rcases h2 with h | h
    · have := UInt32.le_iff_toNat_le.mp h; omega
    · rw [h, UInt32.toNat_zero, Nat.zero_min]
  · rw [if_neg h2]
    rw [Bool.or_eq_true, decide_eq_true_eq, beq_iff_eq, not_or] at h2
    have hlt : offset.toNat < (s.tables.inodes i).size.toNat :=
      UInt32.lt_iff_toNat_lt.mp (UInt32.not_le.mp h2.1)
    have hsub : ((s.tables.inodes i).size - offset).toNat
        = (s.tables.inodes i).size.toNat - offset.toNat :=
      UInt32.toNat_sub_of_le _ _ (UInt32.le_iff_toNat_le.mpr hlt.le)
    -- the requested length, cut at the end of the file
    have hlen : (if size > (s.tables.inodes i).size - offset then (s.tables.inodes i).size - offset
        else size).toNat = min size.toNat ((s.tables.inodes i).size.toNat - offset.toNat) := by
      by_cases hgt : size > (s.tables.inodes i).size - offset
      · rw [if_pos hgt, hsub]
        have := UInt32.lt_iff_toNat_lt.mp hgt
        omega
      · rw [if_neg hgt]
        have := UInt32.le_iff_toNat_le.mp (UInt32.not_lt.mp hgt)
        omega
    rw [hlen]
    exact .inr ⟨hlt, rfl⟩

section

variable (havail : s.available = true) (hb : s.block.Ok)
include havail hb

/-- **What a read delivers**, on any drive: the beginning of the part of the range that lies in the
file, and all of it if the read succeeds. -/
theorem diskfsReadIndex_data (hi : s.tables.IsFile i) (offset size : UInt32) :
    ∃ n ≤ min size.toNat ((s.tables.inodes i).size.toNat - offset.toNat),
      (diskfsReadIndex s i offset size).1.2 = slice (s.byte i) offset.toNat n ∧
      ((diskfsReadIndex s i offset size).1.1 = true →
        n = min size.toNat ((s.tables.inodes i).size.toNat - offset.toNat)) := by
  obtain ⟨n, hn, ⟨heq, hzero⟩ | ⟨-, heq⟩⟩ := diskfsReadIndex_spec havail hi offset size
  · rw [← hn, heq]
    exact ⟨0, Nat.zero_le _, rfl, fun _ => hzero.symm⟩
  · rw [← hn, heq]
    exact readLoop_data hb (Nat.zero_le _)

/-- **A successful read** returns the part of the slice that lies in the file, on any drive. -/
theorem diskfsReadIndex_of_true (hi : s.tables.IsFile i) (offset size : UInt32)
    (hok : (diskfsReadIndex s i offset size).1.1 = true) :
    (diskfsReadIndex s i offset size).1.2 = slice (s.byte i) offset.toNat
      (min size.toNat ((s.tables.inodes i).size.toNat - offset.toNat)) := by
  obtain ⟨n, -, hdata, hall⟩ := diskfsReadIndex_data havail hb hi offset size
  rw [hdata, hall hok]

/-- **Reading a file** from a drive that never fails: `diskfs_read_index` succeeds and returns the
part of the slice that lies in the file. -/
theorem diskfsReadIndex_eq {leak : Set ℕ}
    (hr : s.block.Reliable) (ht : s.tables.Consistent leak) (hi : s.tables.IsFile i)
    (offset size : UInt32) :
    (diskfsReadIndex s i offset size).1 = (true, slice (s.byte i) offset.toNat
      (min size.toNat ((s.tables.inodes i).size.toNat - offset.toNat))) := by
  have hok : (diskfsReadIndex s i offset size).1.1 = true := by
    obtain ⟨n, hn, ⟨heq, -⟩ | ⟨hlt, heq⟩⟩ := diskfsReadIndex_spec havail hi offset size
    · rw [heq]
    · have hroom := ht.room i hi
      obtain ⟨-, -, hhi⟩ := ht.file_bounds hi
      rw [heq]
      exact (readLoop_verdict 0 hb (by omega)).eq_true ((readLoop_moves 0 s.block).faults_eq hr)
  exact Prod.ext hok (diskfsReadIndex_of_true havail hb hi offset size hok)

end

end MyOS.Diskfs
