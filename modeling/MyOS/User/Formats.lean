import MyOS.Mkfs.Build
import MyOS.User.Image

/-!
# The two executable formats

`mkfs.py` packs a payload as MEXE (`build_mexe_program`) and as ELF (`build_elf_program`). The
decoders of `usermode.c` pass both: `run_mexe_program` loads the payload alone and `run_elf_program`
the whole 64 KiB image, which starts with it, both with the entry `USER_PROGRAM_BASE`
(`runMexeProgram_build`, `runElfProgram_build`). As `run_loaded_image` clears the pages before it
copies, the difference is not seen: the two runs enter user mode in the same state
(`formats_agree`).
-/

namespace MyOS

open Paging List
open Mkfs (put packWord)

/-! ### The encoders -/

/-- `struct.pack("<H", value)`. -/
def packHalf (value : ℕ) : List UInt8 := [UInt8.ofNat value, UInt8.ofNat (value / 256)]

/-- `build_mexe_program`. -/
def buildMexeProgram (payload : List UInt8) : List UInt8 :=
  [0x4D, 0x45, 0x58, 0x45] ++ packWord 0 ++ packWord payload.length ++ packWord 0 ++ payload

/-- The headers that `build_elf_program` writes for a payload of `n` bytes, by their offsets. -/
def elfHeaders (n : ℕ) : List (ℕ × List UInt8) :=
  [(0, [0x7F, 0x45, 0x4C, 0x46, 1, 1, 1, 0, 0, 0, 0, 0, 0, 0, 0, 0]), (16, packHalf 2),
    (18, packHalf 3), (20, packWord 1), (24, packWord 0x00400000), (28, packWord 52),
    (40, packHalf 52), (42, packHalf 32), (44, packHalf 1), (52, packWord 1), (56, packWord 0x100),
    (60, packWord 0x00400000), (64, packWord 0x00400000), (68, packWord n), (72, packWord n),
    (76, packWord 7), (80, packWord 0x1000)]

/-- The bytes before the payload. -/
def elfHeaderByte (n : ℕ) : ℕ → UInt8 :=
  (elfHeaders n).foldl (fun image field => put image field.1 field.2) fun _ => 0

/-- `build_elf_program`. -/
def buildElfProgram (payload : List UInt8) : List UInt8 :=
  (List.range (0x100 + payload.length)).map (put (elfHeaderByte payload.length) 0x100 payload)

/-! ### What the decoders read -/

section Decode

variable {payload : List UInt8}

theorem length_buildMexeProgram (payload : List UInt8) :
    (buildMexeProgram payload).length = 16 + payload.length := by
  simp only [buildMexeProgram, packWord, length_append, length_cons, length_nil]

theorem length_buildElfProgram (payload : List UInt8) :
    (buildElfProgram payload).length = 256 + payload.length := by
  simp only [buildElfProgram, length_map, length_range]

/-- The payload stands behind the header of 16 bytes. -/
theorem mexe_payload (payload : List UInt8) (k : ℕ) :
    fileByte (buildMexeProgram payload) (16 + k) = payload.getD k 0 := by
  unfold fileByte buildMexeProgram
  rw [getD_append_right _ _ _ _ (by simp [packWord])]
  congr 1
  simp [packWord]

theorem elf_byte {k : ℕ} (hk : k < 256 + payload.length) :
    fileByte (buildElfProgram payload) k = put (elfHeaderByte payload.length) 0x100 payload k := by
  unfold fileByte buildElfProgram
  rw [getD_eq_getElem _ _ (by simpa using hk), getElem_map, getElem_range]

/-- The headers come before the payload. -/
theorem elf_header {k : ℕ} (hk : k < 256) :
    fileByte (buildElfProgram payload) k = elfHeaderByte payload.length k := by
  rw [elf_byte (by omega), put, if_neg (by omega)]

/-- The payload stands at offset 0x100. -/
theorem elf_payload {k : ℕ} (hk : k < payload.length) :
    fileByte (buildElfProgram payload) (256 + k) = payload.getD k 0 := by
  rw [elf_byte (by omega), put, if_pos (by omega), Nat.add_sub_cancel_left]

theorem elf_le32 {off : ℕ} (hoff : off + 4 ≤ 256) :
    le32 (fileByte (buildElfProgram payload)) off = le32 (elfHeaderByte payload.length) off :=
  le32_congr fun k hk => elf_header (by omega)

theorem elf_le16 {off : ℕ} (hoff : off + 2 ≤ 256) :
    le16 (fileByte (buildElfProgram payload)) off = le16 (elfHeaderByte payload.length) off :=
  le16_congr fun k hk => elf_header (by omega)

/-- A word from its four bytes. -/
theorem le32_of_bytes {f : ℕ → UInt8} {off : ℕ} {v : UInt32} (h₀ : f off = leByte v 0)
    (h₁ : f (off + 1) = leByte v 1) (h₂ : f (off + 2) = leByte v 2)
    (h₃ : f (off + 3) = leByte v 3) :
    le32 f off = v := by
  refine le32_of_leByte fun k hk => ?_
  obtain rfl | rfl | rfl | rfl : k = 0 ∨ k = 1 ∨ k = 2 ∨ k = 3 := by omega
  · exact h₀
  · exact h₁
  · exact h₂
  · exact h₃

/-- The identification that `run_elf_program` checks. -/
theorem elfHeader_ident (n : ℕ) :
    elfHeaderByte n 0 = 0x7F ∧ elfHeaderByte n 1 = 0x45 ∧ elfHeaderByte n 2 = 0x4C ∧
      elfHeaderByte n 3 = 0x46 ∧ elfHeaderByte n 4 = 1 ∧ elfHeaderByte n 5 = 1 :=
  ⟨rfl, rfl, rfl, rfl, rfl, rfl⟩

/-- The fields of the header that it reads. -/
theorem elfHeader_fields (n : ℕ) : le16 (elfHeaderByte n) 16 = 2 ∧ le16 (elfHeaderByte n) 18 = 3 ∧
      le32 (elfHeaderByte n) 20 = 1 ∧ le32 (elfHeaderByte n) 24 = 0x00400000 ∧
      le32 (elfHeaderByte n) 28 = 52 ∧ le16 (elfHeaderByte n) 42 = 32 ∧
      le16 (elfHeaderByte n) 44 = 1 :=
  ⟨le16_of_leByte rfl rfl, le16_of_leByte rfl rfl, le32_of_bytes rfl rfl rfl rfl,
    le32_of_bytes rfl rfl rfl rfl, le32_of_bytes rfl rfl rfl rfl, le16_of_leByte rfl rfl,
    le16_of_leByte rfl rfl⟩

/-- The program header. -/
theorem elfProgramHeader (payload : List UInt8) : programHeader (buildElfProgram payload) 52 =
      ⟨1, 0x100, 0x00400000, UInt32.ofNat payload.length, UInt32.ofNat payload.length⟩ := by
  have hfields : ∀ n, le32 (elfHeaderByte n) 52 = 1 ∧ le32 (elfHeaderByte n) (52 + 4) = 0x100 ∧
      le32 (elfHeaderByte n) (52 + 8) = 0x00400000 ∧
      le32 (elfHeaderByte n) (52 + 16) = UInt32.ofNat n ∧
      le32 (elfHeaderByte n) (52 + 20) = UInt32.ofNat n := fun n =>
    ⟨le32_of_bytes rfl rfl rfl rfl, le32_of_bytes rfl rfl rfl rfl, le32_of_bytes rfl rfl rfl rfl,
      le32_of_bytes rfl rfl rfl rfl, le32_of_bytes rfl rfl rfl rfl⟩
  obtain ⟨htype, hoffset, hvaddr, hfilesz, hmemsz⟩ := hfields payload.length
  unfold programHeader
  rw [elf_le32 (by omega), elf_le32 (by omega), elf_le32 (by omega), elf_le32 (by omega),
    elf_le32 (by omega), htype, hoffset, hvaddr, hfilesz, hmemsz]

end Decode

/-! ### The decoders accept -/

section Accept

variable (L : SpaceLayout) (K : KernelStatics)
  (usermodeEnter : UInt32 → UInt32 → UserState → ℤ × UserState) (st : UserState) (name : List UInt8)
  (payload : List UInt8)

theorem ofNat_toNat_of_le {n : ℕ} (hn : n ≤ 65536 + 256) : (UInt32.ofNat n).toNat = n := by
  rw [UInt32.toNat_ofNat']
  omega

/-- `run_mexe_program` passes every check and loads the payload. -/
theorem runMexeProgram_build (h₁ : 1 ≤ payload.length) (h₂ : payload.length ≤ 65536) :
    runMexeProgram L K usermodeEnter st name (buildMexeProgram payload) =
      runLoadedImage L K usermodeEnter st name userProgramBase (fun k => payload.getD k 0)
        (UInt32.ofNat payload.length) := by
  have hlen := ofNat_toNat_of_le (show payload.length ≤ 65536 + 256 by omega)
  have hfile : (UInt32.ofNat (buildMexeProgram payload).length).toNat = 16 + payload.length := by
    rw [length_buildMexeProgram, ofNat_toNat_of_le (by omega)]
  have hmagic : le32 (fileByte (buildMexeProgram payload)) 0 = 0x4558454D :=
    le32_of_bytes rfl rfl rfl rfl
  have hentry : le32 (fileByte (buildMexeProgram payload)) 4 = 0 :=
    le32_of_bytes rfl rfl rfl rfl
  have hsize : le32 (fileByte (buildMexeProgram payload)) 8 = UInt32.ofNat payload.length :=
    le32_of_bytes rfl rfl rfl rfl
  have himage : (fun i => fileByte (buildMexeProgram payload) (16 + i)) =
      fun k => payload.getD k 0 :=
    funext (mexe_payload payload)
  have hsmall : ¬UInt32.ofNat (buildMexeProgram payload).length < 16 := by
    rw [UInt32.lt_iff_toNat_lt, hfile]
    change ¬16 + payload.length < 16
    omega
  have hfields : ¬((0x4558454D : UInt32) ≠ 0x4558454D ∨ 0 ≥ UInt32.ofNat payload.length ∨
      UInt32.ofNat payload.length > userImageSize) := by
    rw [not_or, not_or, not_not, ge_iff_le, UInt32.le_iff_toNat_le, gt_iff_lt,
      UInt32.lt_iff_toNat_lt, hlen]
    refine ⟨rfl, ?_, ?_⟩
    · change ¬payload.length ≤ 0
      omega
    · change ¬65536 < payload.length
      omega
  have hroom :
      ¬16 + UInt32.ofNat payload.length > UInt32.ofNat (buildMexeProgram payload).length := by
    rw [gt_iff_lt, UInt32.lt_iff_toNat_lt, hfile, UInt32.toNat_add, hlen]
    change ¬16 + payload.length < (16 + payload.length) % 4294967296
    omega
  unfold runMexeProgram
  rw [hmagic, hentry, hsize, himage, if_neg hsmall, if_neg hfields, if_neg hroom]
  rfl

/-- The segment is the whole payload. -/
theorem loadSegments_build (h₂ : payload.length ≤ 65536) :
    loadSegments (buildElfProgram payload) 52 1 0 ⟨fun _ => 0⟩ false =
      .ok (Mem.storeBytes ⟨fun _ => 0⟩ 0 payload.length fun j =>
        fileByte (buildElfProgram payload) (0x100 + UInt32.ofNat j).toNat, true) := by
  have hlen := ofNat_toNat_of_le (show payload.length ≤ 65536 + 256 by omega)
  have hfile : (UInt32.ofNat (buildElfProgram payload).length).toNat = 256 + payload.length := by
    rw [length_buildElfProgram, ofNat_toNat_of_le (by omega)]
  have hend : (0x00400000 + UInt32.ofNat payload.length).toNat = 0x400000 + payload.length := by
    rw [UInt32.toNat_add, hlen]
    change (0x400000 + payload.length) % 4294967296 = 0x400000 + payload.length
    omega
  have hrange : ¬((0x00400000 : UInt32) < userProgramBase ∨
      0x00400000 + UInt32.ofNat payload.length < 0x00400000 ∨
      0x00400000 + UInt32.ofNat payload.length > userProgramBase + userImageSize) := by
    rw [not_or, not_or, UInt32.lt_iff_toNat_lt (a := 0x00400000 + UInt32.ofNat payload.length),
      gt_iff_lt, UInt32.lt_iff_toNat_lt, UInt32.lt_iff_toNat_lt, hend]
    refine ⟨by decide, ?_, ?_⟩
    · change ¬0x400000 + payload.length < 0x400000
      omega
    · change ¬0x410000 < 0x400000 + payload.length
      omega
  have hfits :
      ¬(0x100 + UInt32.ofNat payload.length > UInt32.ofNat (buildElfProgram payload).length ∨
      UInt32.ofNat payload.length > UInt32.ofNat payload.length) := by
    rw [not_or, gt_iff_lt, UInt32.lt_iff_toNat_lt, hfile, UInt32.toNat_add, hlen]
    refine ⟨?_, UInt32.lt_irrefl _⟩
    change ¬256 + payload.length < (256 + payload.length) % 4294967296
    omega
  unfold loadSegments
  rw [show (52 : UInt32).toNat + 32 * 0 = 52 from rfl, elfProgramHeader]
  dsimp only
  rw [if_neg (not_not_intro rfl), if_neg hrange, if_neg hfits]
  rw [hlen]
  rfl

/-- `run_elf_program` passes every check and loads the payload, with zeros behind it. -/
theorem runElfProgram_build (h₂ : payload.length ≤ 65536) :
    runElfProgram L K usermodeEnter st name (buildElfProgram payload) =
      runLoadedImage L K usermodeEnter st name userProgramBase (fun k => payload.getD k 0)
        userImageSize := by
  have hfile : (UInt32.ofNat (buildElfProgram payload).length).toNat = 256 + payload.length := by
    rw [length_buildElfProgram, ofNat_toNat_of_le (by omega)]
  obtain ⟨h0, h1, h2, h3, h4, h5⟩ := elfHeader_ident payload.length
  obtain ⟨h16, h18, h20, h24, h28, h42, h44⟩ := elfHeader_fields payload.length
  have hsmall : ¬UInt32.ofNat (buildElfProgram payload).length < 52 := by
    rw [UInt32.lt_iff_toNat_lt, hfile]
    change ¬256 + payload.length < 52
    omega
  have hroom : ¬((1 : UInt16) = 0 ∨
      52 + (1 : UInt16).toUInt32 * 32 > UInt32.ofNat (buildElfProgram payload).length) := by
    rw [not_or, gt_iff_lt, UInt32.lt_iff_toNat_lt, hfile]
    refine ⟨by decide, ?_⟩
    change ¬256 + payload.length < 84
    omega
  -- the one segment puts the payload at the start of the image
  have himage : (fun i => (Mem.storeBytes ⟨fun _ => 0⟩ 0 payload.length fun j =>
      fileByte (buildElfProgram payload) (0x100 + UInt32.ofNat j).toNat) i) =
      fun k => payload.getD k 0 := by
    funext k
    by_cases hk : k < payload.length
    · have hoff : (0x100 + UInt32.ofNat k).toNat = 256 + k := by
        rw [UInt32.toNat_add, ofNat_toNat_of_le (by omega)]
        change (256 + k) % 4294967296 = 256 + k
        omega
      have hbyte := Mem.storeBytes_of_mem (a := 0) ⟨fun _ => 0⟩ (fun j =>
        fileByte (buildElfProgram payload) (0x100 + UInt32.ofNat j).toNat) hk
      rw [Nat.zero_add] at hbyte
      rw [hbyte, hoff, elf_payload hk]
    · rw [Mem.storeBytes_of_not_mem _ _ (by omega), getD_eq_default _ _ (by omega)]
  -- every check of the file header passes
  unfold runElfProgram
  dsimp only
  rw [elf_header (by omega), elf_header (by omega), elf_header (by omega), elf_header (by omega),
    elf_header (by omega), elf_header (by omega), elf_le16 (by omega), elf_le16 (by omega),
    elf_le32 (by omega), elf_le16 (by omega), elf_le16 (by omega), elf_le32 (by omega),
    elf_le32 (by omega), h0, h1, h2, h3, h4, h5, h16, h18, h20, h24, h28, h42, h44, if_neg hsmall,
    if_neg (by decide), if_neg (by decide), if_neg hroom, if_neg (by decide)]
  rw [show (1 : UInt16).toNat = 1 from rfl, loadSegments_build payload h₂]
  dsimp only
  rw [if_neg (by decide), himage]
  rfl

end Accept

/-! ### The formats agree -/

/-- `run_loaded_image` sees of the image what it has loaded. -/
theorem runLoadedImage_congr {L : SpaceLayout} {K : KernelStatics}
    (usermodeEnter : UInt32 → UInt32 → UserState → ℤ × UserState) (st : UserState)
    (name : List UInt8) {entry size size' : UInt32} {image image' : ℕ → UInt8}
    (hload : loadImage L K st.paging entry image size =
      loadImage L K st.paging entry image' size') :
    runLoadedImage L K usermodeEnter st name entry image size =
      runLoadedImage L K usermodeEnter st name entry image' size' := by
  unfold runLoadedImage
  rw [hload]

/-- What user mode is entered with when the image is loaded and there is a slot for the process. -/
theorem runLoadedImage_enters {L : SpaceLayout} {K : KernelStatics} {st : UserState}
    {name : List UInt8} {entry size : UInt32} {image : ℕ → UInt8} {loaded : Loaded}
    {started : Fin 8 × Processes} (hload : loadImage L K st.paging entry image size = .ok loaded)
    (hstart : st.processes.allocateProcess name entry = some started)
    (usermodeEnter : UInt32 → UInt32 → UserState → ℤ × UserState) :
    (runLoadedImage L K usermodeEnter st name entry image size).1 =
      (usermodeEnter entry (userStackBase + pageSize)
        ⟨pagingSwitchAddressSpace L loaded.paging loaded.space,
          started.2.update started.1 fun e => { e with addressSpace := loaded.space }⟩).1 := by
  unfold runLoadedImage
  rw [hload]
  rw [hstart]

/-- **The two formats agree.** For a payload of 1 to 65536 bytes `run_elf_program` and
`run_mexe_program` pass every check and call `run_loaded_image` with the entry 0x00400000, and the
two runs have the same result, whatever the program does. With twenty free pages and a free slot in
the process table both enter user mode at 0x00400000, in the same state: in its address space the
sixteen pages from 0x00400000 on hold the payload, followed by zeros. -/
theorem formats_agree (K : KernelStatics) (st : UserState) (hp : Managed K st.paging.pmm)
    (name payload : List UInt8) (h₁ : 1 ≤ payload.length) (h₂ : payload.length ≤ 65536) :
    let image := fun k => payload.getD k 0
    let size := UInt32.ofNat payload.length
    let runElf := fun enter => runElfProgram packedLayout K enter st name (buildElfProgram payload)
    let runMexe := fun enter =>
      runMexeProgram packedLayout K enter st name (buildMexeProgram payload)
    (∀ enter,
      runElf enter = runLoadedImage packedLayout K enter st name 0x00400000 image 0x10000 ∧
      runMexe enter = runLoadedImage packedLayout K enter st name 0x00400000 image size ∧
      runElf enter = runMexe enter) ∧
    (st.paging.pmm.usedPagesCount.toNat + 20 ≤ st.paging.pmm.totalPagesCount.toNat →
      (st.processes.allocateProcess name 0x00400000).isSome = true →
      ∃ entered : UserState,
        (∀ k < 65536, userByte entered.paging entered.paging.currentSpace
          (0x00400000 + UInt32.ofNat k) = some (payload.getD k 0)) ∧
        ∀ enter, (runElf enter).1 = (enter 0x00400000 (userStackBase + pageSize) entered).1 ∧
          (runMexe enter).1 = (enter 0x00400000 (userStackBase + pageSize) entered).1) := by
  intro image size runElf runMexe
  have hlen : size.toNat = payload.length := ofNat_toNat_of_le (by omega)
  have hcheck : ¬((0x00400000 : UInt32) < userProgramBase ∨
      (0x00400000 : UInt32) ≥ userProgramBase + userImageSize ∨ size > userImageSize) := by
    rw [not_or, not_or, gt_iff_lt, UInt32.lt_iff_toNat_lt (b := size), hlen]
    refine ⟨by decide, by decide, ?_⟩
    change ¬65536 < payload.length
    omega
  -- behind the payload the image is zero anyway
  have hzero : ∀ k n, payload.length ≤ n → (if k < n then image k else 0) = payload.getD k 0 := by
    intro k n hn
    split_ifs with hk
    · rfl
    · rw [getD_eq_default _ _ (by omega)]
  obtain ⟨hstart, usable, base, htracks⟩ := hp
  have hcases := prepareImage_cases (K := K) htracks (kernel_below htracks hstart)
  -- both formats take the same pages; only the filling looks at the image
  have hload : loadImage packedLayout K st.paging 0x00400000 image 0x10000 =
      loadImage packedLayout K st.paging 0x00400000 image size := by
    rw [loadImage, loadImage, if_neg (by decide), if_neg hcheck, hlen]
    rcases hcases with ⟨e, hfail, -⟩ | ⟨l, hok, hl⟩
    · rw [hfail]
      rfl
    · rw [hok]
      refine congrArg Except.ok (hl.fill_congr fun k hk => ?_)
      rw [hzero k _ le_rfl]
      exact hzero k 65536 h₂
  have helf := fun enter => runElfProgram_build packedLayout K enter st name payload h₂
  have hmexe := fun enter => runMexeProgram_build packedLayout K enter st name payload h₁ h₂
  have hsame : ∀ enter, runElf enter = runMexe enter := by
    intro enter
    refine (helf enter).trans (Eq.trans ?_ (hmexe enter).symm)
    exact runLoadedImage_congr enter st name hload
  refine ⟨fun enter => ⟨helf enter, hmexe enter, hsame enter⟩, fun hfree hslot => ?_⟩
  have hcard := card_free htracks
  rcases hcases with ⟨e, -, hlt⟩ | ⟨l, hok, hl⟩
  · omega
  obtain ⟨started, hstarted⟩ := Option.isSome_iff_exists.mp hslot
  have hloaded : loadImage packedLayout K st.paging 0x00400000 image size =
      .ok (l.fill image payload.length) := by
    rw [loadImage, if_neg hcheck, hok, hlen]
    rfl
  have henter := runLoadedImage_enters hloaded hstarted
  refine ⟨_, fun k hk => ?_,
    fun enter => ⟨?_, (congrArg Prod.fst (hmexe enter)).trans (henter enter)⟩⟩
  · rw [← hzero k payload.length le_rfl, ← hl.byte_fill image payload.length hk]
    rw [show (l.fill image payload.length).space = l.space from rfl, hl.switch_fill]
    rfl
  · rw [hsame enter]
    exact (congrArg Prod.fst (hmexe enter)).trans (henter enter)

/-- A program of one instruction, on a machine with thirty-two pages, reads itself. -/
theorem formats_agree_nop : ∃ entered : UserState,
    userByte entered.paging entered.paging.currentSpace 0x00400000 = some 0x90 ∧
    ∀ enter, (runElfProgram packedLayout Paging.smallKernel enter manyPagesState []
      (buildElfProgram [0x90])).1 = (enter 0x00400000 (userStackBase + pageSize) entered).1 := by
  obtain ⟨entered, hbytes, hruns⟩ := (formats_agree Paging.smallKernel manyPagesState
    managed_manyPages [] [0x90] (by decide) (by decide)).2 (by decide +kernel) (by decide +kernel)
  exact ⟨entered, hbytes 0 (by decide), fun enter => (hruns enter).1⟩

end MyOS
