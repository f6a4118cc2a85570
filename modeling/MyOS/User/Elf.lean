import MyOS.User.Program

/-!
# The accesses of the ELF loader

`run_elf_program` checks the fields of the file with 32-bit sums, and two of them can wrap around:
the end of the table of program headers, and the end of a segment in the file. To say which bytes it
touches, `elfLoad` is the loader together with the list of its accesses to the file and to
`load_image`; `runElfProgram_eq` ties it to `run_elf_program`. Only the first `size` bytes from the
pointer on are the file, and what lies behind is arbitrary. `SafeElf` is what the loader should do,
`ElfFits` a condition on the file, and they are the same (`safeElf_iff_elfFits`).
-/

namespace MyOS

open List

/-! ### The loader with its accesses -/

/-- A byte of the file is read, or a byte of `load_image` is written; pointers have 32 bits. -/
inductive Access
  | read (offset : ℕ)
  | write (offset : ℕ)
deriving DecidableEq

/-- The bytes of the fields of a program header that the loader reads: `type` only when this is not
`PT_LOAD`, and else also `offset`, `vaddr`, `filesz` and `memsz`. -/
def headerFields (type : UInt32) : List ℕ :=
  if type = 1 then List.range 12 ++ List.range' 16 8 else List.range 4

/-- The reads at `off` plus each of `fields`. -/
def readsAt (off : ℕ) (fields : List ℕ) : List Access :=
  fields.map fun k => .read ((off + k) % 2 ^ 32)

/-- The program header at an offset. -/
def headerAt (byte : ℕ → UInt8) (off : ℕ) : ProgramHeader where
  type := le32 byte off
  offset := le32 byte (off + 4)
  vaddr := le32 byte (off + 8)
  filesz := le32 byte (off + 16)
  memsz := le32 byte (off + 20)

/-- The check of the addresses of a segment fails. -/
def ProgramHeader.badAddress (ph : ProgramHeader) : Prop :=
  ph.vaddr < userProgramBase ∨ ph.vaddr + ph.memsz < ph.vaddr ∨
    ph.vaddr + ph.memsz > userProgramBase + userImageSize

instance (ph : ProgramHeader) : Decidable ph.badAddress :=
  inferInstanceAs (Decidable (_ ∨ _))

/-- The check of the place of a segment in the file fails. -/
def ProgramHeader.badPlace (ph : ProgramHeader) (size : UInt32) : Prop :=
  ph.offset + ph.filesz > size ∨ ph.filesz > ph.memsz

instance (ph : ProgramHeader) (size : UInt32) : Decidable (ph.badPlace size) :=
  inferInstanceAs (Decidable (_ ∨ _))

/-- The loop that copies a segment. -/
def copyAccesses (ph : ProgramHeader) : List Access :=
  (List.range ph.filesz.toNat).flatMap fun j =>
    [.read (ph.offset + UInt32.ofNat j).toNat,
      .write (ph.vaddr - userProgramBase + UInt32.ofNat j).toNat]

/-- The loop of `run_elf_program` over `n` program headers from the header `i` on. -/
def elfSegments (byte : ℕ → UInt8) (size phoff : UInt32) :
    ℕ → ℕ → Mem → Bool → List Access × Except ℤ (Mem × Bool)
  | 0, _, loadImage, loaded => ([], .ok (loadImage, loaded))
  | n + 1, i, loadImage, loaded =>
    let ph := headerAt byte (phoff.toNat + 32 * i)
    let reads := readsAt (phoff.toNat + 32 * i) (headerFields ph.type)
    if ph.type ≠ 1 then
      let r := elfSegments byte size phoff n (i + 1) loadImage loaded
      (reads ++ r.1, r.2)
    else if ph.badAddress then (reads, .error (-34))
    else if ph.badPlace size then (reads, .error (-35))
    else
      let r := elfSegments byte size phoff n (i + 1)
        (loadImage.storeBytes (ph.vaddr - userProgramBase).toNat ph.filesz.toNat fun j =>
          byte (ph.offset + UInt32.ofNat j).toNat) true
      (reads ++ copyAccesses ph ++ r.1, r.2)

/-- `phoff`. -/
def elfPhoff (byte : ℕ → UInt8) : UInt32 := le32 byte 28

/-- `phnum`. -/
def elfPhnum (byte : ℕ → UInt8) : UInt16 := le16 byte 44

/-- The checks of the file header, with the code of the one that fails. -/
def elfReject (byte : ℕ → UInt8) (size : UInt32) : Option ℤ :=
  if size < 52 then some (-30)
  else if byte 0 ≠ 0x7F ∨ byte 1 ≠ 0x45 ∨ byte 2 ≠ 0x4C ∨ byte 3 ≠ 0x46 then some (-31)
  else if byte 4 ≠ 1 ∨ byte 5 ≠ 1 ∨ le16 byte 16 ≠ 2 ∨ le16 byte 18 ≠ 3 ∨ le32 byte 20 ≠ 1 ∨
      le16 byte 42 ≠ 32 then some (-32)
  else if elfPhnum byte = 0 ∨ elfPhoff byte + (elfPhnum byte).toUInt32 * 32 > size then some (-33)
  else if le32 byte 24 < userProgramBase ∨ le32 byte 24 ≥ userProgramBase + userImageSize then
    some (-37)
  else none

/-- The bytes of the file header that the checks read, which they do not when the file is too short.
-/
def elfHeaderReads (size : UInt32) : List Access :=
  if size < 52 then []
  else readsAt 0 (List.range 6 ++ List.range' 16 16 ++ List.range' 42 4)

/-- `run_elf_program` up to `run_loaded_image`: the accesses, and `load_image` or the code. -/
def elfLoad (byte : ℕ → UInt8) (size : UInt32) : List Access × Except ℤ Mem :=
  match elfReject byte size with
  | some code => (elfHeaderReads size, .error code)
  | none =>
    let clears := (List.range userImageSize.toNat).map Access.write
    let r := elfSegments byte size (elfPhoff byte) (elfPhnum byte).toNat 0 ⟨fun _ => 0⟩ false
    (elfHeaderReads size ++ clears ++ r.1, match r.2 with
      | .error code => .error code
      | .ok (loadImage, loaded) => if loaded = false then .error (-36) else .ok loadImage)

/-- The loop over the headers is that of `run_elf_program`. -/
theorem elfSegments_snd (file : List UInt8) (phoff : UInt32) (n i : ℕ) (loadImage : Mem)
    (loaded : Bool) :
    (elfSegments (fileByte file) (UInt32.ofNat file.length) phoff n i loadImage loaded).2
      = loadSegments file phoff n i loadImage loaded := by
  induction n generalizing i loadImage loaded with
  | zero => rfl
  | succ n ih =>
    have hph : headerAt (fileByte file) (phoff.toNat + 32 * i)
      = programHeader file (phoff.toNat + 32 * i) := rfl
    unfold elfSegments loadSegments
    rw [hph]
    generalize programHeader file (phoff.toNat + 32 * i) = ph
    by_cases htype : ph.type ≠ 1
    · rw [if_pos htype, if_pos htype]
      exact ih _ _ _
    · rw [if_neg htype, if_neg htype]
      by_cases haddr : ph.badAddress
      · rw [if_pos haddr, if_pos (show _ ∨ _ ∨ _ from haddr)]
      · rw [if_neg haddr, if_neg (show ¬ (_ ∨ _ ∨ _) from haddr)]
        by_cases hplace : ph.badPlace (UInt32.ofNat file.length)
        · rw [if_pos hplace, if_pos (show _ ∨ _ from hplace)]
        · rw [if_neg hplace, if_neg (show ¬ (_ ∨ _) from hplace)]
          exact ih _ _ _

/-- **`run_elf_program`** is the loader, and `run_loaded_image` with what it has loaded. -/
theorem runElfProgram_eq (L : SpaceLayout) (K : KernelStatics)
    (usermodeEnter : UInt32 → UInt32 → UserState → ℤ × UserState) (st : UserState)
    (name file : List UInt8) :
    runElfProgram L K usermodeEnter st name file =
      match (elfLoad (fileByte file) (UInt32.ofNat file.length)).2 with
      | .error code => (code, st)
      | .ok loadImage => runLoadedImage L K usermodeEnter st name (le32 (fileByte file) 24)
          (fun i => loadImage i) userImageSize := by
  unfold runElfProgram elfLoad elfReject elfPhnum elfPhoff
  dsimp only
  rw [elfSegments_snd]
  split_ifs
  all_goals try rfl
  generalize loadSegments file _ _ 0 ⟨fun _ => 0⟩ false = r
  rcases r with code | ⟨loadImage, loaded⟩
  · rfl
  · cases loaded
    · rfl
    · rfl

/-! ### What it should do -/

/-- The segment covers the offset `k` of the image. -/
def ProgramHeader.covers (ph : ProgramHeader) (k : ℕ) : Bool :=
  decide (ph.vaddr.toNat - 0x400000 ≤ k ∧ k < ph.vaddr.toNat - 0x400000 + ph.filesz.toNat)

/-- The byte `k` of an image under the segments `headers`, of which the last one that covers it
counts: the byte of the file that the segment has there. -/
def overlayByte (byte : ℕ → UInt8) (image : ℕ → UInt8) (headers : List ProgramHeader) (k : ℕ) :
    UInt8 :=
  match headers.reverse.find? (·.covers k) with
  | some ph => byte (ph.offset.toNat + (k - (ph.vaddr.toNat - 0x400000)))
  | none => image k

/-- The `PT_LOAD` segments in the order of the program headers. -/
def loadHeaders (byte : ℕ → UInt8) : List ProgramHeader :=
  ((List.range (elfPhnum byte).toNat).map fun i =>
    headerAt byte ((elfPhoff byte).toNat + 32 * i)).filter (·.type = 1)

/-- The loader stays inside the file and inside `load_image`, and leaves the zero image under the
segments. -/
structure SafeElf (byte : ℕ → UInt8) (size : UInt32) : Prop where
  reads : ∀ offset, Access.read offset ∈ (elfLoad byte size).1 → offset < size.toNat
  writes : ∀ offset, Access.write offset ∈ (elfLoad byte size).1 → offset < 65536
  overlay : ∀ loadImage, (elfLoad byte size).2 = .ok loadImage → ∀ k < 65536,
    loadImage k = overlayByte byte (fun _ => 0) (loadHeaders byte) k

/-- The loop ends at this header with an error. -/
def ProgramHeader.rejected (ph : ProgramHeader) (size : UInt32) : Prop :=
  ph.type = 1 ∧ (ph.badAddress ∨ ph.badPlace size)

/-- The program header `i`. -/
def elfHeader (byte : ℕ → UInt8) (i : ℕ) : ProgramHeader :=
  headerAt byte ((elfPhoff byte).toNat + 32 * i)

/-- The loop gets to the header `i`. -/
def Reaches (byte : ℕ → UInt8) (size : UInt32) (i : ℕ) : Prop :=
  i < (elfPhnum byte).toNat ∧ ∀ k < i, ¬ (elfHeader byte k).rejected size

/-- No 32-bit sum of an accepted file wraps around: not the end of the table of headers, and not the
end of a segment in the file. The table may wrap around only in a file that fills all but the last
2 MiB of the address space, when the headers that the loop gets to lie in the file all the same. -/
structure ElfFits (byte : ℕ → UInt8) (size : UInt32) : Prop where
  table : elfReject byte size = none →
    (elfPhoff byte).toNat + 32 * (elfPhnum byte).toNat < 2 ^ 32 ∨
    2 ^ 32 - 2 ^ 21 < size.toNat ∧
      ∀ i, Reaches byte size i → ∀ k ∈ headerFields (elfHeader byte i).type,
        ((elfPhoff byte).toNat + 32 * i + k) % 2 ^ 32 < size.toNat
  segment : elfReject byte size = none → ∀ i, Reaches byte size i →
    (elfHeader byte i).type = 1 → ¬ (elfHeader byte i).rejected size →
      (elfHeader byte i).offset.toNat + (elfHeader byte i).filesz.toNat < 2 ^ 32

/-! ### One segment -/

section Segment

variable {size : UInt32} {ph : ProgramHeader}

/-- A segment whose addresses pass the check lies in the image. -/
theorem ProgramHeader.dest_le (h : ¬ ph.badAddress) (hsz : ph.filesz.toNat ≤ ph.memsz.toNat) :
    (ph.vaddr - userProgramBase).toNat = ph.vaddr.toNat - 0x400000 ∧
    0x400000 ≤ ph.vaddr.toNat ∧ ph.vaddr.toNat - 0x400000 + ph.filesz.toNat ≤ 65536 := by
  simp only [badAddress, not_or] at h
  obtain ⟨hlo, hwrap, hhi⟩ := h
  have hlo' := UInt32.le_iff_toNat_le.mp (UInt32.not_lt.mp hlo)
  have hwrap' := UInt32.le_iff_toNat_le.mp (UInt32.not_lt.mp hwrap)
  have hhi' := UInt32.le_iff_toNat_le.mp (UInt32.not_lt.mp hhi)
  have hv := ph.vaddr.toNat_lt
  have hm := ph.memsz.toNat_lt
  rw [UInt32.toNat_add] at hwrap' hhi'
  change 0x400000 ≤ ph.vaddr.toNat at hlo'
  change _ ≤ 0x410000 at hhi'
  refine ⟨?_, hlo', by omega⟩
  rw [UInt32.toNat_sub_of_le _ _ (UInt32.not_lt.mp hlo)]
  rfl

theorem ProgramHeader.filesz_le (h : ¬ ph.badPlace size) :
    (ph.offset.toNat + ph.filesz.toNat) % 2 ^ 32 ≤ size.toNat ∧
    ph.filesz.toNat ≤ ph.memsz.toNat := by
  simp only [badPlace, not_or] at h
  have h1 := UInt32.le_iff_toNat_le.mp (UInt32.not_lt.mp h.1)
  have h2 := UInt32.le_iff_toNat_le.mp (UInt32.not_lt.mp h.2)
  rw [UInt32.toNat_add] at h1
  exact ⟨h1, h2⟩

/-- The accesses of the copying loop. -/
theorem mem_copyAccesses {a : Access} : a ∈ copyAccesses ph ↔ ∃ j < ph.filesz.toNat,
    a = .read (ph.offset + UInt32.ofNat j).toNat ∨
    a = .write (ph.vaddr - userProgramBase + UInt32.ofNat j).toNat := by
  simp [copyAccesses]

theorem mem_readsAt {off : ℕ} {fields : List ℕ} {a : Access} :
    a ∈ readsAt off fields ↔ ∃ k ∈ fields, a = .read ((off + k) % 2 ^ 32) := by
  simp only [readsAt, mem_map, eq_comm]

theorem write_notMem_readsAt {off offset : ℕ} {fields : List ℕ} :
    Access.write offset ∉ readsAt off fields := by
  simp [readsAt]

/-- A copied segment is read inside the file exactly when its end does not wrap around. -/
theorem copyAccesses_reads_iff (h : ¬ ph.badPlace size) :
    (∀ offset, Access.read offset ∈ copyAccesses ph → offset < size.toNat) ↔
      ph.offset.toNat + ph.filesz.toNat < 2 ^ 32 := by
  obtain ⟨hend, -⟩ := ProgramHeader.filesz_le h
  have ho := ph.offset.toNat_lt
  have hs := size.toNat_lt
  constructor
  · intro hreads
    by_contra hwrap
    -- the last byte of the address space is read
    have hlast := hreads (2 ^ 32 - 1) (mem_copyAccesses.mpr
      ⟨2 ^ 32 - 1 - ph.offset.toNat, by omega, .inl (by
        rw [Word.toNat_add_ofNat (by omega)]
        congr 1
        omega)⟩)
    omega
  · intro hfit offset hmem
    obtain ⟨j, hj, heq | heq⟩ := mem_copyAccesses.mp hmem
    · rw [Word.toNat_add_ofNat (by omega)] at heq
      cases heq
      omega
    · cases heq

theorem copyAccesses_writes (haddr : ¬ ph.badAddress) (hplace : ¬ ph.badPlace size) {offset : ℕ}
    (hmem : Access.write offset ∈ copyAccesses ph) : offset < 65536 := by
  obtain ⟨hdest, -, hle⟩ := ProgramHeader.dest_le haddr (ProgramHeader.filesz_le hplace).2
  obtain ⟨j, hj, heq | heq⟩ := mem_copyAccesses.mp hmem
  · cases heq
  · rw [Word.toNat_add_ofNat (by omega), hdest] at heq
    cases heq
    omega

/-- The bytes that a segment writes into the image. -/
theorem storeBytes_segment (byte : ℕ → UInt8) (haddr : ¬ ph.badAddress)
    (hplace : ¬ ph.badPlace size)
    (hfit : ph.offset.toNat + ph.filesz.toNat < 2 ^ 32) (m : Mem) (k : ℕ) :
    m.storeBytes (ph.vaddr - userProgramBase).toNat ph.filesz.toNat
        (fun j => byte (ph.offset + UInt32.ofNat j).toNat) k =
      if ph.covers k then byte (ph.offset.toNat + (k - (ph.vaddr.toNat - 0x400000))) else m k := by
  obtain ⟨hdest, -, hle⟩ := ProgramHeader.dest_le haddr (ProgramHeader.filesz_le hplace).2
  rw [hdest]
  by_cases hc : ph.vaddr.toNat - 0x400000 ≤ k ∧ k < ph.vaddr.toNat - 0x400000 + ph.filesz.toNat
  · rw [if_pos (by simpa [ProgramHeader.covers] using hc)]
    obtain ⟨j, rfl⟩ := Nat.exists_eq_add_of_le hc.1
    rw [Mem.storeBytes_of_mem _ _ (by omega), Word.toNat_add_ofNat (by omega),
      Nat.add_sub_cancel_left]
  · rw [if_neg (by simpa [ProgramHeader.covers] using hc)]
    exact Mem.storeBytes_of_not_mem _ _ (by omega)

end Segment

/-! ### The loop over the headers -/

section Loop

variable {byte : ℕ → UInt8} {size : UInt32}

/-- The headers from `i` on that the loop gets to, when it has got to `i`. -/
def ReachesFrom (byte : ℕ → UInt8) (size : UInt32) (i k : ℕ) : Prop :=
  i ≤ k ∧ ∀ l, i ≤ l → l < k → ¬ (elfHeader byte l).rejected size

theorem ReachesFrom.succ {i k : ℕ} (hi : ¬ (elfHeader byte i).rejected size)
    (h : ReachesFrom byte size (i + 1) k) : ReachesFrom byte size i k := by
  refine ⟨by have := h.1; omega, fun l hl hlk => ?_⟩
  by_cases heq : l = i
  · exact heq ▸ hi
  · exact h.2 l (by omega) hlk

/-- The loop gets to the header `i`, and to those that it gets to from the next one on. -/
theorem exists_reachesFrom_succ {Q : ℕ → Prop} {n i : ℕ} :
    (∃ k < i + (n + 1), ReachesFrom byte size i k ∧ Q k) ↔ Q i ∨
      ¬ (elfHeader byte i).rejected size ∧
        ∃ k < i + 1 + n, ReachesFrom byte size (i + 1) k ∧ Q k := by
  constructor
  · rintro ⟨k, hk, hreach, hQ⟩
    by_cases hki : k = i
    · exact .inl (hki ▸ hQ)
    · have hik := hreach.1
      exact .inr ⟨hreach.2 i le_rfl (by omega), k, by omega,
        ⟨by omega, fun l hl hlk => hreach.2 l (by omega) hlk⟩, hQ⟩
  · rintro (hQ | ⟨hrej, k, hk, hreach, hQ⟩)
    · exact ⟨i, by omega, ⟨le_rfl, fun l _ _ => by omega⟩, hQ⟩
    · exact ⟨k, by omega, hreach.succ hrej, hQ⟩

/-- The accesses of the loop: those to the headers that it gets to, and those of the segments that
it copies. -/
theorem mem_elfSegments {n i : ℕ} {m : Mem} {loaded : Bool} {a : Access} :
    a ∈ (elfSegments byte size (elfPhoff byte) n i m loaded).1 ↔
      ∃ k < i + n, ReachesFrom byte size i k ∧
        (a ∈ readsAt ((elfPhoff byte).toNat + 32 * k) (headerFields (elfHeader byte k).type) ∨
        (elfHeader byte k).type = 1 ∧ ¬ (elfHeader byte k).rejected size ∧
          a ∈ copyAccesses (elfHeader byte k)) := by
  induction n generalizing i m loaded with
  | zero =>
    refine iff_of_false not_mem_nil ?_
    rintro ⟨k, hk, ⟨hik, -⟩, -⟩
    omega
  | succ n ih =>
    have hph : headerAt byte ((elfPhoff byte).toNat + 32 * i) = elfHeader byte i := rfl
    rw [exists_reachesFrom_succ]
    unfold elfSegments
    rw [hph]
    by_cases htype : (elfHeader byte i).type ≠ 1
    · have hrej : ¬ (elfHeader byte i).rejected size := fun h => htype h.1
      rw [if_pos htype, mem_append, ih]
      simp only [htype, hrej, not_false_eq_true, true_and, false_and, or_false]
    · rw [if_neg htype]
      rw [not_not] at htype
      by_cases hrej : (elfHeader byte i).rejected size
      · -- the loop ends here
        simp only [hrej, not_true_eq_false, false_and, and_false, or_false]
        by_cases haddr : (elfHeader byte i).badAddress
        · rw [if_pos haddr]
        · rw [if_neg haddr, if_pos (hrej.2.resolve_left haddr)]
      · have haddr : ¬ (elfHeader byte i).badAddress := fun h => hrej ⟨htype, .inl h⟩
        have hplace : ¬ (elfHeader byte i).badPlace size := fun h => hrej ⟨htype, .inr h⟩
        rw [if_neg haddr, if_neg hplace, mem_append, mem_append, ih, and_iff_right hrej,
          and_iff_right htype, and_iff_right hrej]

/-- The first segment goes under the others. -/
theorem overlayByte_cons (image : ℕ → UInt8) (ph : ProgramHeader) (headers : List ProgramHeader)
    (k : ℕ) :
    overlayByte byte image (ph :: headers) k = overlayByte byte (fun k =>
      if ph.covers k then byte (ph.offset.toNat + (k - (ph.vaddr.toNat - 0x400000)))
      else image k) headers k := by
  unfold overlayByte
  rw [reverse_cons, List.find?_append]
  cases List.find? (fun x => x.covers k) headers.reverse with
  | some ph' => rfl
  | none =>
    by_cases hc : ph.covers k = true
    · simp [hc]
    · simp [hc]

/-- What the loop leaves in `load_image` when it goes through to the end. -/
theorem elfSegments_ok {n i : ℕ} {m m' : Mem} {loaded loaded' : Bool}
    (h : (elfSegments byte size (elfPhoff byte) n i m loaded).2 = .ok (m', loaded'))
    (hfit : ∀ k < i + n, ReachesFrom byte size i k → (elfHeader byte k).type = 1 →
      ¬ (elfHeader byte k).rejected size →
        (elfHeader byte k).offset.toNat + (elfHeader byte k).filesz.toNat < 2 ^ 32) (k : ℕ) :
    m' k = overlayByte byte (fun k => m k)
      (((List.range' i n).map (elfHeader byte)).filter (·.type = 1)) k := by
  induction n generalizing i m loaded with
  | zero =>
    obtain ⟨rfl, -⟩ := Prod.mk.inj (Except.ok.inj h)
    rfl
  | succ n ih =>
    have hph : headerAt byte ((elfPhoff byte).toNat + 32 * i) = elfHeader byte i := rfl
    have hself : ReachesFrom byte size i i := ⟨le_rfl, fun l _ _ => by omega⟩
    unfold elfSegments at h
    rw [hph] at h
    rw [range'_succ, map_cons, filter_cons]
    by_cases htype : (elfHeader byte i).type ≠ 1
    · have hrej : ¬ (elfHeader byte i).rejected size := fun h => htype h.1
      rw [if_pos htype] at h
      rw [if_neg (by simpa using htype)]
      exact ih h fun k hk hreach => hfit k (by omega) (hreach.succ hrej)
    · rw [if_neg htype] at h
      rw [not_not] at htype
      rw [if_pos (by simpa using htype)]
      by_cases haddr : (elfHeader byte i).badAddress
      · rw [if_pos haddr] at h
        cases h
      · by_cases hplace : (elfHeader byte i).badPlace size
        · rw [if_neg haddr, if_pos hplace] at h
          cases h
        · have hrej : ¬ (elfHeader byte i).rejected size := fun h => h.2.elim haddr hplace
          rw [if_neg haddr, if_neg hplace] at h
          have hstore := funext
            (storeBytes_segment byte haddr hplace (hfit i (by omega) hself htype hrej) m)
          rw [ih h fun k hk hreach => hfit k (by omega) (hreach.succ hrej), overlayByte_cons,
            hstore]

end Loop

/-! ### Safety -/

section Safety

variable {byte : ℕ → UInt8} {size : UInt32}

theorem reaches_iff {i : ℕ} :
    Reaches byte size i ↔ i < (elfPhnum byte).toNat ∧ ReachesFrom byte size 0 i := by
  unfold Reaches ReachesFrom
  simp only [Nat.zero_le, true_and, forall_const]

/-- What an accepted file header says about the sizes. -/
theorem elfReject_none (h : elfReject byte size = none) : 52 ≤ size.toNat ∧
    ((elfPhoff byte).toNat + 32 * (elfPhnum byte).toNat) % 2 ^ 32 ≤ size.toNat := by
  unfold elfReject at h
  split_ifs at h with h1 h2 h3 h4 h5
  refine ⟨UInt32.le_iff_toNat_le.mp (UInt32.not_lt.mp h1), ?_⟩
  have hend := UInt32.le_iff_toNat_le.mp (UInt32.not_lt.mp (not_or.mp h4).2)
  have hnum := (elfPhnum byte).toNat_lt
  rw [UInt32.toNat_add, UInt32.toNat_mul, UInt16.toNat_toUInt32] at hend
  change ((elfPhoff byte).toNat + (elfPhnum byte).toNat * 32 % 2 ^ 32) % 2 ^ 32 ≤ _ at hend
  omega

/-- The accesses to an accepted file. -/
theorem mem_elfLoad (h : elfReject byte size = none) {a : Access} :
    a ∈ (elfLoad byte size).1 ↔ a ∈ elfHeaderReads size ∨
      (∃ k < 65536, a = .write k) ∨ ∃ i, Reaches byte size i ∧
        (a ∈ readsAt ((elfPhoff byte).toNat + 32 * i) (headerFields (elfHeader byte i).type) ∨
        (elfHeader byte i).type = 1 ∧ ¬ (elfHeader byte i).rejected size ∧
          a ∈ copyAccesses (elfHeader byte i)) := by
  have hclear : a ∈ (List.range userImageSize.toNat).map Access.write ↔
      ∃ k < 65536, a = .write k := by
    rw [mem_map]
    change (∃ k, k ∈ List.range 65536 ∧ _) ↔ _
    simp only [mem_range, eq_comm]
  unfold elfLoad
  rw [h]
  rw [mem_append, mem_append, or_assoc, hclear, mem_elfSegments]
  simp only [reaches_iff, Nat.zero_add, and_assoc]

theorem elfHeaderReads_lt {offset : ℕ} (h : Access.read offset ∈ elfHeaderReads size) :
    offset < size.toNat := by
  unfold elfHeaderReads at h
  by_cases hlt : size < 52
  · rw [if_pos hlt] at h
    cases h
  · have hsize := UInt32.le_iff_toNat_le.mp (UInt32.not_lt.mp hlt)
    change 52 ≤ size.toNat at hsize
    rw [if_neg hlt] at h
    obtain ⟨k, hk, heq⟩ := mem_readsAt.mp h
    cases heq
    simp only [mem_append, mem_range, mem_range'_1] at hk
    omega

theorem write_notMem_elfHeaderReads {offset : ℕ} : Access.write offset ∉ elfHeaderReads size := by
  unfold elfHeaderReads
  split_ifs
  · exact not_mem_nil
  · exact write_notMem_readsAt

/-- The fields of a header lie in its 32 bytes. -/
theorem headerFields_lt {type : UInt32} {k : ℕ} (h : k ∈ headerFields type) : k < 32 := by
  unfold headerFields at h
  by_cases htype : type = 1
  · rw [if_pos htype] at h
    simp only [mem_append, mem_range, mem_range'_1] at h
    omega
  · rw [if_neg htype, mem_range] at h
    omega

theorem zero_mem_headerFields {type : UInt32} : 0 ∈ headerFields type := by
  unfold headerFields
  split_ifs <;> simp

/-- A file that fits is loaded safely. -/
theorem ElfFits.safe (h : ElfFits byte size) : SafeElf byte size := by
  cases hrej : elfReject byte size with
  | some code =>
    -- only the file header is read
    have hload : elfLoad byte size = (elfHeaderReads size, .error code) := by
      unfold elfLoad
      rw [hrej]
    refine ⟨fun offset hmem => ?_, fun offset hmem => ?_, fun m hm => ?_⟩
    · rw [hload] at hmem
      exact elfHeaderReads_lt hmem
    · rw [hload] at hmem
      exact absurd hmem write_notMem_elfHeaderReads
    · rw [hload] at hm
      cases hm
  | none =>
    obtain ⟨hsize, hend⟩ := elfReject_none hrej
    refine ⟨fun offset hmem => ?_, fun offset hmem => ?_, fun m hm => ?_⟩
    · rcases (mem_elfLoad hrej).mp hmem with hmem | ⟨k, -, heq⟩ | ⟨i, hi, hmem | ⟨htype, hok, hmem⟩⟩
      · exact elfHeaderReads_lt hmem
      · cases heq
      · obtain ⟨k, hk, heq⟩ := mem_readsAt.mp hmem
        cases heq
        rcases h.table hrej with hnowrap | ⟨-, hin⟩
        · have := headerFields_lt hk
          have := hi.1
          omega
        · exact hin i hi k hk
      · have hplace : ¬ (elfHeader byte i).badPlace size := fun h0 => hok ⟨htype, .inr h0⟩
        exact (copyAccesses_reads_iff hplace).mpr (h.segment hrej i hi htype hok) offset hmem
    · rcases (mem_elfLoad hrej).mp hmem with
        hmem | ⟨k, hk, heq⟩ | ⟨i, hi, hmem | ⟨htype, hok, hmem⟩⟩
      · exact absurd hmem write_notMem_elfHeaderReads
      · cases heq
        exact hk
      · exact absurd hmem write_notMem_readsAt
      · exact copyAccesses_writes (fun h0 => hok ⟨htype, .inl h0⟩)
          (fun h0 => hok ⟨htype, .inr h0⟩) hmem
    · -- a loop that went through has reached, and accepted, every header
      intro k _
      unfold elfLoad at hm
      rw [hrej] at hm
      dsimp only at hm
      cases hr : (elfSegments byte size (elfPhoff byte) (elfPhnum byte).toNat 0 ⟨fun _ => 0⟩
          false).2 with
      | error code =>
        rw [hr] at hm
        cases hm
      | ok r =>
        obtain ⟨m', loaded⟩ := r
        rw [hr] at hm
        cases loaded with
        | false => cases hm
        | true =>
          obtain rfl : m' = m := by simpa using hm
          rw [elfSegments_ok hr (fun i hi hreach => h.segment hrej i
            (reaches_iff.mpr ⟨by omega, hreach⟩)) k, loadHeaders, range_eq_range']
          rfl

/-- A file that is loaded safely fits. -/
theorem SafeElf.fits (h : SafeElf byte size) : ElfFits byte size := by
  refine ⟨fun hrej => ?_, fun hrej i hi htype hok => ?_⟩
  · have hin : ∀ i, Reaches byte size i → ∀ k ∈ headerFields (elfHeader byte i).type,
        ((elfPhoff byte).toNat + 32 * i + k) % 2 ^ 32 < size.toNat := fun i hi k hk =>
      h.reads _ ((mem_elfLoad hrej).mpr
        (.inr (.inr ⟨i, hi, .inl (mem_readsAt.mpr ⟨k, hk, rfl⟩)⟩)))
    by_cases hnowrap : (elfPhoff byte).toNat + 32 * (elfPhnum byte).toNat < 2 ^ 32
    · exact .inl hnowrap
    · -- the first header begins in the last 2 MiB of the address space, and is read
      have hoff := (elfPhoff byte).toNat_lt
      have hnum := (elfPhnum byte).toNat_lt
      have hfirst := hin 0 ⟨by omega, fun k hk => absurd hk (Nat.not_lt_zero k)⟩ 0
        zero_mem_headerFields
      exact .inr ⟨by omega, hin⟩
  · have hplace : ¬ (elfHeader byte i).badPlace size := fun h0 => hok ⟨htype, .inr h0⟩
    exact (copyAccesses_reads_iff hplace).mp fun offset hmem => h.reads offset
      ((mem_elfLoad hrej).mpr (.inr (.inr ⟨i, hi, .inr ⟨htype, hok, hmem⟩⟩)))

/-- **The ELF loader stays inside its buffers exactly when the sums of the file do not wrap
around**, for every file of every size and whatever lies behind it in memory; and it is the loader
of `run_elf_program`, which runs what has been loaded. -/
theorem safeElf_iff_elfFits (byte : ℕ → UInt8) (size : UInt32) :
    (SafeElf byte size ↔ ElfFits byte size) ∧
    ∀ L K usermodeEnter st name file, runElfProgram L K usermodeEnter st name file =
      match (elfLoad (fileByte file) (UInt32.ofNat file.length)).2 with
      | .error code => (code, st)
      | .ok loadImage => runLoadedImage L K usermodeEnter st name (le32 (fileByte file) 24)
          (fun i => loadImage i) userImageSize :=
  ⟨⟨SafeElf.fits, ElfFits.safe⟩, runElfProgram_eq⟩

end Safety

/-- A file of 84 bytes with one program header, for 16 bytes at the offset `offset`. -/
def elfWithOffset (phoff offset : UInt32) : List UInt8 :=
  [0x7F, 0x45, 0x4C, 0x46, 1, 1, 1, 0, 0, 0, 0, 0, 0, 0, 0, 0, 2, 0, 3, 0, 1, 0, 0, 0,
    0, 0, 0x40, 0] ++ (List.range 4).map (leByte phoff) ++
  [0, 0, 0, 0, 0, 0, 0, 0, 52, 0, 32, 0, 1, 0, 0, 0, 0, 0, 0, 0,
    1, 0, 0, 0] ++ (List.range 4).map (leByte offset) ++
  [0, 0, 0x40, 0, 0, 0, 0, 0, 0x10, 0, 0, 0, 0x10, 0, 0, 0, 0, 0, 0, 0, 0, 0, 0, 0]

/-- Two files with a sum that wraps around. The segment of the first one is said to begin 16 bytes
below the end of the address space, the table of headers of the second one 32 bytes below it. The
loader accepts both, and reads there. -/
theorem elf_wraps_unsafe : (elfReject (fileByte (elfWithOffset 52 0xFFFFFFF0)) 84 = none ∧
      ¬ SafeElf (fileByte (elfWithOffset 52 0xFFFFFFF0)) 84) ∧
    elfReject (fileByte (elfWithOffset 0xFFFFFFE0 0)) 84 = none ∧
      ¬ SafeElf (fileByte (elfWithOffset 0xFFFFFFE0 0)) 84 := by
  have h1 : elfReject (fileByte (elfWithOffset 52 0xFFFFFFF0)) 84 = none := by decide +kernel
  have h2 : elfReject (fileByte (elfWithOffset 0xFFFFFFE0 0)) 84 = none := by decide +kernel
  refine ⟨⟨h1, fun h => ?_⟩, h2, fun h => ?_⟩
  · have := h.fits.segment h1 0 ⟨by decide +kernel, fun k hk => absurd hk (by omega)⟩
      (by decide +kernel) (by unfold ProgramHeader.rejected; decide +kernel)
    exact absurd this (by decide +kernel)
  · rcases h.fits.table h2 with hnowrap | ⟨hbig, -⟩
    · exact absurd hnowrap (by decide +kernel)
    · exact absurd hbig (by decide)

end MyOS
