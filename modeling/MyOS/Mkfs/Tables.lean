import MyOS.Mkfs.Layout
import MyOS.Diskfs.Mirror

/-!
# The tables in a built image

`builtTables b` are the superblock, inode table and bitmap that `mkfs.py` means to store. The
allocation invariant holds for them (`builtTables_consistent`), and the image holds them: what the
Python code packs is what the C structures decode (`image_mirrors`).
-/

namespace MyOS.Mkfs

open Diskfs ExtentAlloc List

/-! ### The intended tables -/

/-- The bytes of a name, cut to 31. -/
def nameBytes (name : List Char) : List UInt8 := (name.map (fun c => UInt8.ofNat c.toNat)).take 31

/-- The inode an entry stands for. -/
def nodeInode (node : Node) : Inode where
  type := node.type
  reserved0 := 0
  flags := 0
  size := UInt32.ofNat node.size
  firstSector := UInt32.ofNat node.first
  sectorCount := UInt32.ofNat node.sectors
  parent := UInt32.ofNat node.parent
  name := nameOf (nameBytes node.name)
  reserved := Bytes.zero

/-- The tables `main` packs. -/
def builtTables (b : Builder) : Tables where
  superblock := ⟨diskfsMagic, 4096, 64, UInt32.ofNat b.inodes.length, 2, 1, 3, 8, 11, 0⟩
  inodes := fun i => ((b.inodes[i.val]?).map nodeInode).getD Inode.zero
  bitmap := usedMap b.nextSector

variable {node : Node} {image : ℕ → UInt8}

theorem builtTables_inode {b : Builder} {i : Fin 64} (h : b.inodes[i.val]? = some node) :
    (builtTables b).inodes i = nodeInode node := by
  simp [builtTables, h]

theorem builtTables_spare {b : Builder} {i : Fin 64} (h : b.inodes.length ≤ i.val) :
    (builtTables b).inodes i = Inode.zero := by
  simp [builtTables, getElem?_eq_none h]

section Built

variable {b : Builder} (h : b.Ok)
include h

theorem built_count : (builtTables b).superblock.inodeCount.toNat = b.inodes.length := by
  have := h.count_le
  exact UInt32.toNat_ofNat_of_lt' (by unfold UInt32.size; omega)

theorem built_inUse_iff (i : Fin 64) : (builtTables b).InUse i ↔ i.val < b.inodes.length := by
  unfold Tables.InUse
  rw [built_count h]

variable {i : Fin 64}

theorem built_node (hi : (builtTables b).InUse i) :
    ∃ node : Node, b.inodes[i.val]? = some node ∧ (builtTables b).inodes i = nodeInode node := by
  rw [built_inUse_iff h] at hi
  exact ⟨_, getElem?_eq_getElem hi, builtTables_inode (getElem?_eq_getElem hi)⟩

/-- The live files of the tables are the file entries of the list. -/
theorem built_fileNode (hi : (builtTables b).IsFile i) :
    ∃ node, b.FileNode i.val node ∧ (builtTables b).inodes i = nodeInode node := by
  obtain ⟨node, hn, hin⟩ := built_node h hi.1
  have ht := hi.2
  rw [hin] at ht
  exact ⟨node, ⟨hn, ht⟩, hin⟩

/-- Sizes and sectors of a file entry fit their 32-bit fields. -/
theorem fileNode_fields {k : ℕ} {node : Node} (hn : b.FileNode k node) :
    (nodeInode node).firstSector.toNat = node.first ∧
    (nodeInode node).sectorCount.toNat = node.sectors ∧
    (nodeInode node).size.toNat = node.size ∧ node.size ≤ 512 * node.sectors ∧
    node.size + 511 < 2 ^ 32 := by
  obtain ⟨hs, hlo, hhi⟩ := h.file k node hn
  have hle := h.next_le
  have hsize : node.size ≤ 512 * node.sectors := by
    rw [hs]; unfold sectorsFor; omega
  have hword (n : ℕ) (hn : n < 2 ^ 32) : (UInt32.ofNat n).toNat = n := UInt32.toNat_ofNat_of_lt' hn
  exact ⟨hword _ (by omega), hword _ (by omega), hword _ (by omega), hsize, by omega⟩

theorem built_mem_extent (n : ℕ) : n ∈ (builtTables b).extent i ↔
    ∃ node, b.FileNode i.val node ∧ node.first ≤ n ∧ n < node.first + node.sectors := by
  constructor
  · rintro ⟨hu, ht, h1, h2⟩
    obtain ⟨node, hn, hin⟩ := built_fileNode h ⟨hu, ht⟩
    obtain ⟨hf, hc, -⟩ := fileNode_fields h hn
    rw [hin, hf] at h1 h2
    rw [hc] at h2
    exact ⟨node, hn, h1, h2⟩
  · rintro ⟨node, hn, h1, h2⟩
    obtain ⟨hf, hc, -⟩ := fileNode_fields h hn
    refine ⟨(built_inUse_iff h i).mpr (lt_length_of_getElem? hn.1), ?_⟩
    rw [builtTables_inode hn.1]
    exact ⟨hn.2, by rw [hf]; exact h1, by rw [hf, hc]; exact h2⟩

theorem built_used (n : ℕ) : n ∈ (builtTables b).used ↔ n < b.nextSector := by
  have hle := h.next_le
  change Bitmap.testBit (usedMap b.nextSector) n = true ↔ _
  unfold usedMap
  rw [Bitmap.testBit_putBits_true _ (fun k hk => ?_)]
  · simp
  · have := mem_range.mp hk
    omega

/-- **A built image is consistent**: nothing shared, nothing leaked. -/
theorem builtTables_consistent : (builtTables b).Consistent ∅ := by
  have hroot := lt_length_of_getElem? h.root
  refine ⟨rfl, ?_, ?_, fun i hi => ?_, fun i hi => ?_, fun i hi => ?_, ?_⟩
  · rw [built_count h]; omega
  · rw [built_count h]; exact h.count_le
  · rw [built_inUse_iff h] at hi
    rw [builtTables_spare (by omega)]
    rfl
  · obtain ⟨node, hn, hin⟩ := built_fileNode h hi
    obtain ⟨-, hc, hs, -, hw⟩ := fileNode_fields h hn
    rw [hin]
    apply UInt32.toNat_inj.mp
    rw [sectorsForSize_toNat (by rw [hs]; exact hw), hc, hs, (h.file _ _ hn).1]
    rfl
  · obtain ⟨node, hn, hin⟩ := built_fileNode h hi
    obtain ⟨-, hc, hs, hroom, -⟩ := fileNode_fields h hn
    rw [hin, hs, hc]
    exact hroom
  · -- the extents follow one another from sector 11 on, and the bitmap ends with the last
    change Allocated _ 11 4096 _ _
    have hlo := h.next_ge
    have hle := h.next_le
    have hext : ∀ i n, n ∈ (builtTables b).extent i → 11 ≤ n ∧ n < b.nextSector := by
      intro i n hn
      obtain ⟨node, hf, h1, h2⟩ := (built_mem_extent h n).mp hn
      have := h.file _ _ hf
      omega
    refine ⟨fun i n hn => ?_, fun i j hij => ?_, fun i => Set.disjoint_empty _, fun n hn => ?_⟩
    · have := hext i n hn
      exact ⟨this.1, by omega⟩
    · refine Set.disjoint_left.mpr fun n hi hj => ?_
      obtain ⟨m, hm, hm1, hm2⟩ := (built_mem_extent h n).mp hi
      obtain ⟨m', hm', hm1', hm2'⟩ := (built_mem_extent h n).mp hj
      rcases Nat.lt_trichotomy i.val j.val with hlt | heq | hlt
      · have := h.ordered _ _ _ _ hlt hm hm'
        omega
      · exact hij (Fin.ext heq)
      · have := h.ordered _ _ _ _ hlt hm' hm
        omega
    · rw [built_used h]
      constructor
      · intro hlt
        by_cases hn11 : n < 11
        · exact .inl hn11
        · obtain ⟨k, node, hf, h1, h2⟩ := h.cover n (by omega) hlt
          have hk := lt_length_of_getElem? hf.1
          have hc := h.count_le
          exact .inr (.inl ⟨⟨k, by omega⟩, (built_mem_extent h n).mpr ⟨node, hf, h1, h2⟩⟩)
      · rintro (hlt | ⟨i, hi⟩ | hempty)
        · omega
        · exact (hext i n hi).2
        · exact absurd hempty (Set.notMem_empty n)

end Built

/-! ### The packed tables -/

theorem put_apply {off k : ℕ} {data : List UInt8} (h1 : off ≤ k) (h2 : k < off + data.length) :
    put image off data k = data.getD (k - off) 0 :=
  if_pos ⟨h1, h2⟩

theorem put_of_not_mem {off k : ℕ} {data : List UInt8} (h : k < off ∨ off + data.length ≤ k) :
    put image off data k = image k := if_neg (by omega)

/-- The packed superblock decodes to the intended one. -/
theorem putHeader_apply (image : ℕ → UInt8) (n : ℕ) {i : ℕ} (hi : i < 40) : putHeader image n i
      = Superblock.byteAt ⟨diskfsMagic, 4096, 64, UInt32.ofNat n, 2, 1, 3, 8, 11, 0⟩ i := by
  by_cases h4 : i < 4
  · have hmagic : ∀ k < 4, [0x4D, 0x59, 0x46, 0x32].getD k 0 = leByte diskfsMagic k := by decide
    interval_cases i <;> exact hmagic _ h4
  · interval_cases i <;> first | exact absurd rfl h4 | rfl

theorem putHeader_of_le (image : ℕ → UInt8) (n : ℕ) {i : ℕ} (hi : 40 ≤ i) :
    putHeader image n i = image i := by
  simp only [putHeader, foldl_cons, foldl_nil]
  repeat rw [put_of_not_mem (.inr (le_trans (by simp [packWord]) hi))]

theorem packInode_eq_ok {bytes : List UInt8} (h : packInode node = .ok bytes) :
    (∀ c ∈ node.name, c.toNat < 128) ∧ bytes = [node.type, 0, 0, 0] ++ packWord node.size ++
      packWord node.first ++ packWord node.sectors ++ packWord node.parent ++
      (nameBytes node.name ++ 0 :: List.replicate (32 - (nameBytes node.name).length - 1) 0) ++
      List.replicate 12 0 := by
  unfold packInode encodeName at h
  by_cases hascii : node.name.all (fun c => decide (c.toNat < 128)) = true
  · rw [if_pos hascii] at h
    refine ⟨fun c hc => ?_, (Except.ok.inj h).symm⟩
    simpa using all_eq_true.mp hascii c hc
  · rw [if_neg hascii] at h
    cases h

theorem length_nameBytes (name : List Char) : (nameBytes name).length ≤ 31 := by
  unfold nameBytes
  rw [length_take]
  exact min_le_left _ _

/-- **The packed inode** is the memory image of the C structure. -/
theorem packInode_apply {bytes : List UInt8} (h : packInode node = .ok bytes) :
    bytes.length = 64 ∧ ∀ k < 64, bytes.getD k 0 = (nodeInode node).byteAt k := by
  obtain ⟨-, rfl⟩ := packInode_eq_ok h
  have hlen := length_nameBytes node.name
  refine ⟨by simp [packWord]; omega, fun k hk => ?_⟩
  by_cases h20 : k < 20
  · by_cases h3 : k = 3
    · subst h3
      exact (by decide : (0 : UInt8) = UInt8.ofNat ((0 : UInt16).toNat / 256))
    · interval_cases k <;> first | exact absurd rfl h3 | rfl
  · obtain ⟨j, rfl⟩ : ∃ j, k = 20 + j := ⟨k - 20, by omega⟩
    -- the name and the reserved bytes, after twenty bytes of fields
    have hskip : ([node.type, 0, 0, 0] ++ packWord node.size ++ packWord node.first ++
        packWord node.sectors ++ packWord node.parent ++
        (nameBytes node.name ++ 0 :: replicate (32 - (nameBytes node.name).length - 1) 0) ++
        replicate 12 0).getD (20 + j) 0
        = ((nameBytes node.name ++ 0 :: replicate (32 - (nameBytes node.name).length - 1) 0) ++
          replicate 12 0).getD j 0 := by
      rw [Nat.add_comm]
      rfl
    rw [hskip]
    have hzero : ∀ j, (nameBytes node.name).length ≤ j →
        ((nameBytes node.name ++ 0 :: replicate (32 - (nameBytes node.name).length - 1) 0) ++
          replicate 12 0).getD j 0 = 0 := by
      intro j hj
      rw [append_assoc, getD_eq_getElem?_getD, getElem?_append_right hj,
        ← replicate_succ, replicate_append_replicate, getElem?_replicate]
      split <;> rfl
    rw [Inode.byteAt_of_ge (by omega)]
    by_cases h52 : 20 + j < 52
    · rw [if_pos h52, Nat.add_sub_cancel_left]
      change _ = (nameOf (nameBytes node.name)).get j
      unfold nameOf
      rw [Bytes.get_ofFun (by omega)]
      by_cases hj : j < (nameBytes node.name).length
      · rw [append_assoc, getD_eq_getElem?_getD, getElem?_append_left hj,
          getD_eq_getElem?_getD]
      · rw [hzero j (by omega), getD_eq_getElem?_getD, getElem?_eq_none (by omega)]
        rfl
    · rw [if_neg h52, hzero j (by omega)]
      change 0 = (Bytes.zero : Bytes 12).get _
      rw [Bytes.get_zero]

/-- The loop over the inodes fills their slots and nothing else. -/
theorem putInodes_apply {nodes : List Node} {index : ℕ} {im : ℕ → UInt8}
    (h : putInodes nodes index im = .ok image) :
    (∀ k, k < 1536 + index * 64 ∨ 1536 + (index + nodes.length) * 64 ≤ k → image k = im k) ∧
    ∀ (j : ℕ) (node : Node), nodes[j]? = some node → (∀ c ∈ node.name, c.toNat < 128) ∧
      ∀ k < 64, image (1536 + (index + j) * 64 + k) = (nodeInode node).byteAt k := by
  induction nodes generalizing index im with
  | nil =>
    rw [← Except.ok.inj h]
    exact ⟨fun _ _ => rfl, nofun⟩
  | cons node nodes ih =>
    rw [putInodes] at h
    cases hp : packInode node with
    | error e => rw [hp] at h; cases h
    | ok bytes =>
      rw [hp] at h
      obtain ⟨hlen, hbytes⟩ := packInode_apply hp
      obtain ⟨hoff, hin⟩ := ih h
      refine ⟨fun k hk => ?_, fun j m hj => ?_⟩
      · rw [length_cons] at hk
        rw [hoff k (by omega), put_of_not_mem (by omega)]
      · cases j with
        | zero =>
          obtain rfl : node = m := by simpa using hj
          refine ⟨(packInode_eq_ok hp).1, fun k hk => ?_⟩
          rw [hoff _ (by omega), put_apply (by omega) (by omega), ← hbytes k hk]
          congr 1
          omega
        | succ j =>
          obtain ⟨hascii, hmem⟩ := hin j m (by simpa using hj)
          refine ⟨hascii, fun k hk => ?_⟩
          rw [← hmem k hk]
          congr 1
          omega

/-- What a completed run of `main` did. -/
theorem main_eq_ok {files : List (List Char × List UInt8)} (h : main files = .ok image) :
    ∃ b, addFiles (files.mergeSort pathLe) start = .ok b ∧
      putInodes b.inodes 0 (put (putHeader b.image b.inodes.length) (2 * 512)
        (List.ofFn (usedMap b.nextSector))) = .ok image := by
  unfold main at h
  cases ha : addFiles (files.mergeSort pathLe) start with
  | error e => rw [ha] at h; cases h
  | ok b => rw [ha] at h; exact ⟨b, rfl, h⟩

theorem length_ofFn_usedMap (n : ℕ) : (List.ofFn (usedMap n)).length = 512 := length_ofFn

section Image

variable {b : Builder} {image : ℕ → UInt8}
  (h : putInodes b.inodes 0 (put (putHeader b.image b.inodes.length) (2 * 512)
    (List.ofFn (usedMap b.nextSector))) = .ok image)
include h

/-- Behind the inode table the image has the data of the files. -/
theorem image_data (hok : b.Ok) {k : ℕ} (hk : 11 * 512 ≤ k) : image k = b.image k := by
  have hc := hok.count_le
  rw [(putInodes_apply h).1 k (by omega), put_of_not_mem (by rw [length_ofFn_usedMap]; omega),
    putHeader_of_le _ _ (by omega)]

/-- The slots behind the last inode are blank. -/
theorem image_spare (hok : b.Ok) {k : ℕ} (h1 : 1536 + b.inodes.length * 64 ≤ k)
    (h2 : k < 11 * 512) : image k = 0 := by
  rw [(putInodes_apply h).1 k (by omega), put_of_not_mem (by rw [length_ofFn_usedMap]; omega),
    putHeader_of_le _ _ (by omega)]
  exact hok.blank k h2

/-- **The image holds the intended tables.** -/
theorem image_mirrors (hok : b.Ok) : Mirrors (imageSector image) (builtTables b) := by
  obtain ⟨hoff, hin⟩ := putInodes_apply h
  refine ⟨?_, ?_, fun i => ?_⟩
  · refine Superblock.ofBytes_of_byteAt fun k hk => ?_
    have hk' : k < 40 := hk
    unfold imageSector
    rw [Nat.zero_add, Bytes.get_ofFun (by omega), UInt32.toNat_zero, Nat.zero_mul, Nat.zero_add,
      hoff k (by omega), put_of_not_mem (by omega)]
    exact putHeader_apply _ _ hk'
  · refine Bytes.ext_get fun k hk => ?_
    change (Bytes.ofFun (fun k => image (2 * 512 + k)) : Sector).get k
      = (usedMap b.nextSector).get k
    rw [Bytes.get_ofFun hk, hoff _ (by omega),
      put_apply (by omega) (by rw [length_ofFn_usedMap]; omega), Nat.add_sub_cancel_left,
      Bytes.get_of_lt _ hk, getD_eq_getElem?_getD, List.getElem?_ofFn, dif_pos hk]
    rfl
  · have hi := i.isLt
    have hoffset : inodeOffset i + 64 ≤ 512 := by unfold inodeOffset Inode.bytes; omega
    have hbyte : ∀ k < 64, (imageSector image (tableSector i)).get (inodeOffset i + k)
        = image (1536 + i.val * 64 + k) := by
      intro k hk
      unfold imageSector
      rw [Bytes.get_ofFun (by omega), tableSector_toNat]
      congr 1
      unfold inodeOffset Inode.bytes
      omega
    by_cases hlt : i.val < b.inodes.length
    · rw [builtTables_inode (getElem?_eq_getElem hlt)]
      refine Inode.ofBytes_of_byteAt fun k hk => ?_
      rw [hbyte k hk, ← (hin i.val _ (getElem?_eq_getElem hlt)).2 k hk, Nat.zero_add]
    · rw [builtTables_spare (by omega)]
      refine Inode.ofBytes_of_byteAt fun k hk => ?_
      have hzero : ∀ k < 64, Inode.zero.byteAt k = 0 := by decide
      have hk' : k < 64 := hk
      rw [hbyte k hk, image_spare h hok (by omega) (by omega), hzero k hk]

end Image

end MyOS.Mkfs
