import Mathlib.Data.List.GetD
import MyOS.Diskfs.Target

/-!
# Truncation

`diskfs_truncate_file` reads the old content into a buffer of zeros and writes the buffer back in
the new length. It ignores the answer of the read: when a sector cannot be read the bytes from there
on stay zero, and the caller is told of a success (`truncate_motd_lost`).

A truncation that reports success gave the file its old content, cut or padded with zeros, exactly
if the path leads the write to the file that was found and the bytes that the read did not deliver
are zeros in the old content as far as the new length keeps them (`truncate_content`). A complete
read is always enough (`ReadsEnough.of_read`).
-/

namespace MyOS.Diskfs

open List

variable {s : Fs} {path : CString} {i : Fin 64} {buf : Buffer} {size : UInt32}

/-! ### Writing the new length -/

/-- The path leads to slot `i` of `s'`, whose file holds `old` in the length `size`. -/
structure Truncates (old : List UInt8) (s' : Fs) (path : CString) (i : Fin 64) (size : ℕ) :
    Prop where
  found : diskfsFindFile s'.tables (some path) = some i
  content : s'.content i = old.take size ++ List.replicate (size - old.length) 0

@[simp] theorem length_content (s : Fs) (i : Fin 64) :
    (s.content i).length = (s.tables.inodes i).size.toNat := by
  simp [Fs.content, slice]

/-- A list cut or padded with zeros is what a buffer of zeros holds after the list was read. -/
theorem take_pad_eq_slice (l : List UInt8) (n : ℕ) :
    l.take n ++ List.replicate (n - l.length) 0 = slice (fun k => l.getD k 0) 0 n := by
  refine ext_getElem (by simp [slice]; omega) fun k _ hk => ?_
  have hkn : k < n := by simpa [slice] using hk
  by_cases hkl : k < l.length
  · simp [slice, hkl, hkn]
  · simp [slice, getElem_append, hkl]

/-- **A file that was found only through the cut copy of the path is not written**: the write goes
to a file with other components, or to a free slot. -/
theorem Sane.write_elsewhere (h : Sane s) (hfind : diskfsFindFile s.tables (some path) = some i)
    (hno : ¬ FileAt s.tables (pathParts path.bytes) i)
    (hok : (diskfsWriteFile s (some path) (some buf) size).1 = true) :
    (diskfsWriteFile s (some path) (some buf) size).2.content i = s.content i := by
  obtain ⟨label, ht⟩ := h.isTree
  have hfile := isFile_of_diskfsFindFile h.consistent hfind
  have hcut : FileAt s.tables (cutParts path.bytes) i :=
    (((diskfsFindFile_eq_some_iff _ _ _).mp hfind).resolve_left hno).2.2
  obtain ⟨j, hwrote⟩ := h.write_slot hok
  refine hwrote.content i ?_ hfile
  rintro rfl
  rcases hwrote.slot with ⟨htarget, -⟩ | ⟨-, hfree, -⟩
  · -- a place in the tree has one spelling, so the cut copy would be the path itself
    have hspell := ht.walk_label (fun c hc => leafOk_of_mem_cutParts hc) hcut.1
    rw [ht.root_label, nil_append, htarget.label_eq ht] at hspell
    exact hno (hspell ▸ hcut)
  · rw [hfile.2] at hfree
    cases hfree

/-- **Writing a buffer in a new length truncates the file** exactly if the write goes to that file
and the buffer holds the old content followed by zeros. -/
theorem Sane.truncates_write_iff (h : Sane s) (hfind : diskfsFindFile s.tables (some path) = some i)
    (hne : size ≠ (s.tables.inodes i).size)
    (hok : (diskfsWriteFile s (some path) (some buf) size).1 = true) :
    Truncates (s.content i) (diskfsWriteFile s (some path) (some buf) size).2 path i size.toNat ↔
      FileAt s.tables (pathParts path.bytes) i ∧
        ∀ k < size.toNat, buf k = (s.content i).getD k 0 := by
  by_cases hat : FileAt s.tables (pathParts path.bytes) i
  · have hsaved := (saves_iff h hat hok).mpr (.inl rfl)
    constructor
    · intro htrunc
      refine ⟨hat, fun k hk => ?_⟩
      have hslice := hsaved.content.symm.trans htrunc.content
      rw [take_pad_eq_slice, slice, slice, map_inj_left] at hslice
      simpa only [Nat.zero_add] using hslice k (mem_range.mpr hk)
    · rintro ⟨-, hbuf⟩
      refine ⟨hsaved.found, ?_⟩
      rw [hsaved.content, take_pad_eq_slice]
      exact slice_congr fun k hk => by rw [Nat.zero_add, hbuf k hk]
  · refine iff_of_false (fun htrunc => hne (UInt32.toNat_inj.mp ?_)) fun hwrite => hat hwrite.1
    -- the file has kept its content, and with it a length that was not asked for
    have hlength := congrArg length htrunc.content
    rw [h.write_elsewhere hfind hat hok, take_pad_eq_slice, length_slice, length_content] at hlength
    exact hlength.symm

/-! ### Reading the old content -/

/-- The bytes of the file in slot `i` that `diskfs_read_index` does not deliver are zeros, as far as
the length `size` keeps them. -/
def ReadsEnough (s : Fs) (i : Fin 64) (size : UInt32) : Prop :=
  ∀ k, (diskfsReadIndex s i 0 (s.tables.inodes i).size).1.2.length ≤ k → k < size.toNat →
    (s.content i).getD k 0 = 0

/-- What the read delivers is a beginning of the content. -/
theorem Sane.read_begins (h : Sane s) (hi : s.tables.IsFile i) :
    ∃ rest, s.content i = (diskfsReadIndex s i 0 (s.tables.inodes i).size).1.2 ++ rest ∧
      ((diskfsReadIndex s i 0 (s.tables.inodes i).size).1.1 = true → rest = []) := by
  obtain ⟨n, hn, hdata, hall⟩ :=
    diskfsReadIndex_data h.available h.ok hi 0 (s.tables.inodes i).size
  rw [UInt32.toNat_zero, Nat.sub_zero, Nat.min_self] at hn hall
  obtain ⟨m, hm⟩ := Nat.exists_eq_add_of_le hn
  refine ⟨slice (s.byte i) n m, ?_, fun hok => ?_⟩
  · rw [hdata, UInt32.toNat_zero, Fs.content, hm, ← slice_append, Nat.zero_add]
  · obtain rfl : m = 0 := by have := hall hok; omega
    rfl

/-- A complete read is enough for every length. -/
theorem ReadsEnough.of_read (h : Sane s) (hi : s.tables.IsFile i)
    (hok : (diskfsReadIndex s i 0 (s.tables.inodes i).size).1.1 = true) (size : UInt32) :
    ReadsEnough s i size := by
  obtain ⟨rest, hcontent, hrest⟩ := h.read_begins hi
  intro k hk _
  rw [hcontent, hrest hok, append_nil]
  exact getD_eq_default _ _ hk

/-- The buffer of zeros that was read into holds the old content and zeros exactly if the read
delivered enough. -/
theorem Sane.readsEnough_iff (h : Sane s) (hi : s.tables.IsFile i) (size : UInt32) :
    ReadsEnough s i size ↔ ∀ k < size.toNat,
      (diskfsReadIndex s i 0 (s.tables.inodes i).size).1.2.getD k 0 = (s.content i).getD k 0 := by
  obtain ⟨rest, hcontent, -⟩ := h.read_begins hi
  unfold ReadsEnough
  rw [hcontent]
  generalize (diskfsReadIndex s i 0 (s.tables.inodes i).size).1.2 = read
  constructor
  · intro henough k hk
    by_cases hread : k < read.length
    · rw [getD_append _ _ _ _ hread]
    · rw [henough k (by omega) hk, getD_eq_default _ _ (by omega)]
  · intro hsame k hread hk
    rw [← hsame k hk, getD_eq_default _ _ hread]

/-! ### Truncation -/

/-- **Truncation cuts or pads.** After any run on a mounted image, on any drive, for a path that
resolves to the file in slot `i`: a `diskfs_truncate_file` that reports success leaves the old
content in the new length exactly if nothing had to be written, or the path's own components lead to
the file and either the new length is zero or the read of the old content delivered enough of it.
Neither the calls before the truncation nor those after its read are restricted. -/
theorem truncate_content {s0 : Fs} (h0 : MountedImage s0) (ops : List Op) (path : CString)
    (i : Fin 64) (hfind : diskfsFindFile (run s0 ops).tables (some path) = some i) (size : UInt32)
    (hok : (diskfsTruncateFile (run s0 ops) (some path) size).1 = true) :
    Truncates ((run s0 ops).content i) (diskfsTruncateFile (run s0 ops) (some path) size).2 path i
        size.toNat ↔
      size = ((run s0 ops).tables.inodes i).size ∨
        (FileAt (run s0 ops).tables (pathParts path.bytes) i ∧
          (size = 0 ∨ ReadsEnough (run s0 ops) i size)) := by
  have hsane := h0.sane.run ops
  generalize run s0 ops = s at hfind hok hsane ⊢
  have hfile := isFile_of_diskfsFindFile hsane.consistent hfind
  unfold diskfsTruncateFile at hok ⊢
  by_cases hmax : size > maxFileSize
  · rw [if_pos hmax] at hok
    cases hok
  rw [if_neg hmax, hfind] at hok ⊢
  dsimp only at hok ⊢
  by_cases hsame : (size == (s.tables.inodes i).size) = true
  · -- nothing to do
    have hsize := beq_iff_eq.mp hsame
    rw [if_pos hsame]
    refine iff_of_true ⟨hfind, ?_⟩ (.inl hsize)
    rw [take_pad_eq_slice, hsize, ← length_content, slice_getD_self]
  have hne : size ≠ (s.tables.inodes i).size := fun h => hsame (beq_iff_eq.mpr h)
  rw [if_neg hsame] at hok ⊢
  rw [or_iff_right hne]
  by_cases hzero : (size == 0) = true
  · -- an empty file is written without reading the old one
    obtain rfl := beq_iff_eq.mp hzero
    rw [if_pos hzero] at hok ⊢
    rw [hsane.truncates_write_iff hfind hne hok]
    exact and_congr_right' (iff_of_true (fun k hk => absurd hk (Nat.not_lt_zero k)) (.inl rfl))
  rw [if_neg hzero] at hok ⊢
  rw [or_iff_right fun h => hzero (beq_iff_eq.mpr h), hsane.readsEnough_iff hfile]
  by_cases hbig : (decide ((s.tables.inodes i).size > readBufferSize) ||
      decide (size > readBufferSize)) = true
  · rw [if_pos hbig] at hok
    cases hok
  rw [if_neg hbig] at hok ⊢
  -- the read touches the cache only, and its answer is not looked at
  obtain ⟨b, hb, hreads⟩ := diskfsReadIndex_reads s i 0 (s.tables.inodes i).size
  obtain ⟨hsane', hcontent⟩ := hsane.reads hreads
  rw [hb] at hok ⊢
  have hwrite := hsane'.truncates_write_iff hfind hne hok
  rwa [hcontent] at hwrite

/-- `/etc/motd` grows on a drive that fails a later call, after a run that deleted and wrote it. -/
theorem truncate_content_motd :
    let s := failingFs 1000
    let ops := [.delete (some motdPath), .write (some motdPath) (some fun _ => 5) 2]
    (diskfsTruncateFile (run s ops) (some motdPath) 4).2.content 2 = [5, 5, 0, 0] := by
  intro s ops
  have hs : MountedImage s := failing_mounted (by decide +kernel)
  have hfind : diskfsFindFile (run s ops).tables (some motdPath) = some 2 := by decide +kernel
  have hat : FileAt (run s ops).tables (pathParts motdPath.bytes) 2 :=
    ⟨by decide +kernel, by decide +kernel⟩
  have henough : ReadsEnough (run s ops) 2 4 := .of_read (hs.sane.run ops)
    (isFile_of_diskfsFindFile (hs.sane.run ops).consistent hfind) (by decide +kernel) 4
  refine ((truncate_content hs ops motdPath 2 hfind 4 (by decide +kernel)).mpr
    (.inr ⟨hat, .inr henough⟩)).content.trans ?_
  decide +kernel

/-- **A failed read is written back as zeros**: `/etc/motd` holds `hi`, its one sector cannot be
read, and its truncation to one byte reports success with a zero byte in the file. -/
theorem truncate_motd_lost :
    let s := failingFs 10
    MountedImage s ∧ diskfsFindFile s.tables (some motdPath) = some 2 ∧
      s.content 2 = [104, 105] ∧ (diskfsTruncateFile s (some motdPath) 1).1 = true ∧
      (diskfsTruncateFile s (some motdPath) 1).2.content 2 = [0] := by
  refine ⟨failing_mounted ?_, ?_, ?_, ?_, ?_⟩ <;> decide +kernel

end MyOS.Diskfs
