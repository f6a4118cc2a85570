import MyOS.Paging.Footprint
import MyOS.Paging.Kernel
import Mathlib.Logic.Relation

/-!
# What the kernel's tables translate

`Booting` says where the tables of `paging_initialize` lie; this module says what is in them.
`Identity K m pages` states that exactly the pages of `pages` are mapped, each to itself. The
identity tables make it the first 32768 pages; every round of the loop over the framebuffer adds a
run of pages that lies in one 4 MiB slot.

The loop is also given as the source has it, one round of the inner or the outer loop at a time
(`Sweep.step`), so that its termination is a statement about the code (`framebuffer_exact`).
-/

namespace MyOS

/-- The word that maps the page `k` to itself. -/
def identityWord (k : ℕ) : UInt32 := UInt32.ofNat (k * 4096) ||| pagePresent ||| pageWritable

/-- The page `k` is mapped to itself when it is one of `pages`, and else has no entry. -/
structure Identity (K : KernelStatics) (m : Mem) (pages : Finset ℕ) : Prop where
  word : ∀ i < 1024, ∀ j < 1024, lookup m K.kernelPageDirectory i j =
    if 1024 * i + j ∈ pages then identityWord (1024 * i + j) else 0
  slot : ∀ i < 1024, isPresent (entry m K.kernelPageDirectory i) = true ↔
    ∃ k ∈ pages, k / 1024 = i

section Lookup

variable {K : KernelStatics} {m : Mem} {role : ℕ → Role} {t e : UInt32} {i i' j j0 n : ℕ}

/-! ### Reading through the directory -/

/-- Entries of the table `i` are written in a row. -/
theorem KernelTables.lookup_fill {f : ℕ → UInt32} (h : KernelTables K m role) (hi : i < 1024)
    (hp : isPresent (entry m K.kernelPageDirectory i) = true) (hn : j0 + n ≤ 1024)
    (hi' : i' < 1024) (hj : j < 1024) :
    entry (m.storeWords ((pageOf (entry m K.kernelPageDirectory i)).toNat + 4 * j0) n f)
        K.kernelPageDirectory i' = entry m K.kernelPageDirectory i' ∧
    lookup (m.storeWords ((pageOf (entry m K.kernelPageDirectory i)).toNat + 4 * j0) n f)
        K.kernelPageDirectory i' j =
      if i' = i ∧ j0 ≤ j ∧ j < j0 + n then f (j - j0) else lookup m K.kernelPageDirectory i' j := by
  have hrole := h.table i hi hp
  have halign := pageOf_aligned (entry m K.kernelPageDirectory i)
  obtain ⟨t, ht⟩ : ∃ t, t = pageOf (entry m K.kernelPageDirectory i) := ⟨_, rfl⟩
  rw [← ht] at hrole halign ⊢
  -- the table and the directory are different pages
  have hframe : ∀ a, a / 4096 ≠ t.toNat / 4096 → m.storeWords (t.toNat + 4 * j0) n f a = m a :=
    fun a ha => Mem.storeWords_of_not_mem _ _ (by omega)
  have hdir : entry (m.storeWords (t.toNat + 4 * j0) n f) K.kernelPageDirectory i'
      = entry m K.kernelPageDirectory i' :=
    entry_of_page K.directory_aligned hi' fun a ha => hframe a fun h0 => by
      have := h.dir_role
      rw [← ha, h0, hrole] at this
      cases this
  refine ⟨hdir, ?_⟩
  unfold lookup
  rw [hdir]
  by_cases hp' : isPresent (entry m K.kernelPageDirectory i') = true
  · rw [if_pos hp', if_pos hp']
    by_cases hii : i' = i
    · subst hii
      rw [← ht]
      by_cases hin : j0 ≤ j ∧ j < j0 + n
      · rw [if_pos ⟨rfl, hin⟩]
        have := Mem.load32_storeWords m f (a := t.toNat + 4 * j0) (show j - j0 < n by omega)
        rwa [show t.toNat + 4 * j0 + 4 * (j - j0) = t.toNat + 4 * j by omega] at this
      · rw [if_neg fun h0 => hin h0.2]
        exact Mem.load32_storeWords_of_disjoint _ _ (by omega)
    · rw [if_neg fun h0 => hii h0.1]
      refine entry_of_page (pageOf_aligned _) hj fun a ha => hframe a fun h0 => hii ?_
      have := h.table i' hi' hp'
      rw [← ha, h0, hrole] at this
      exact (Role.kernelTable.inj this).symm
  · rw [if_neg hp', if_neg hp', if_neg]
    rintro ⟨rfl, -⟩
    exact hp' hp

/-- A page without a role becomes the table `i`. -/
theorem KernelTables.lookup_install {c : ℕ → UInt32} (h : KernelTables K m role)
    (ht : t.toNat % 4096 = 0) (hother : role (t.toNat / 4096) = .other) (hpage : pageOf e = t)
    (hpresent : isPresent e = true) (hi' : i' < 1024) (hj : j < 1024) :
    entry (MyOS.setEntry (m.storeWords t.toNat pageEntries c) K.kernelPageDirectory i e)
        K.kernelPageDirectory i' = (if i' = i then e else entry m K.kernelPageDirectory i') ∧
    (i < 1024 →
      lookup (MyOS.setEntry (m.storeWords t.toNat pageEntries c) K.kernelPageDirectory i e)
        K.kernelPageDirectory i' j
          = if i' = i then c j else lookup m K.kernelPageDirectory i' j) := by
  have hdt : K.kernelPageDirectory.toNat / 4096 ≠ t.toNat / 4096 :=
    page_ne_of_role h.dir_role hother (by simp)
  have hframe : ∀ a, a / 4096 ≠ t.toNat / 4096 → m.storeWords t.toNat pageEntries c a = m a :=
    fun a ha => Mem.storeWords_of_not_mem _ _ (by unfold pageEntries; omega)
  have hdir : entry (MyOS.setEntry (m.storeWords t.toNat pageEntries c) K.kernelPageDirectory i e)
      K.kernelPageDirectory i' = if i' = i then e else entry m K.kernelPageDirectory i' := by
    rw [entry_setEntry K.directory_aligned]
    by_cases hii : i' = i
    · rw [if_pos hii, if_pos hii]
    · rw [if_neg hii, if_neg hii]
      exact entry_of_page K.directory_aligned hi' fun a ha => hframe a (ha ▸ hdt)
  refine ⟨hdir, fun hi => ?_⟩
  unfold lookup
  rw [hdir]
  by_cases hii : i' = i
  · rw [if_pos hii, if_pos hii, if_pos hpresent, hpage]
    have hentry :
        entry (MyOS.setEntry (m.storeWords t.toNat pageEntries c) K.kernelPageDirectory i e) t j
          = entry (m.storeWords t.toNat pageEntries c) t j :=
      entry_of_page ht hj fun a ha =>
        setEntry_of_page K.directory_aligned hi fun h0 => hdt (h0.symm.trans ha)
    rw [hentry]
    exact Mem.load32_storeWords _ _ hj
  · rw [if_neg hii, if_neg hii]
    by_cases hp' : isPresent (entry m K.kernelPageDirectory i') = true
    · -- the other tables are neither the new page nor the directory
      have hrole := h.table i' hi' hp'
      rw [if_pos hp', if_pos hp']
      refine entry_of_page (pageOf_aligned _) hj fun a ha => ?_
      rw [setEntry_of_page K.directory_aligned hi fun h0 => ?_, hframe a fun h0 => ?_]
      · rw [← ha, h0, hother] at hrole
        cases hrole
      · rw [← ha, h0, h.dir_role] at hrole
        cases hrole
    · rw [if_neg hp', if_neg hp']

/-! ### Adding pages -/

/-- A run of pages inside the slot `i`, which has a table. -/
theorem Identity.fill (pages : Finset ℕ) {f : ℕ → UInt32} (h : KernelTables K m role)
    (hi : i < 1024) (hp : isPresent (entry m K.kernelPageDirectory i) = true)
    (hn : j0 + n ≤ 1024) (hpos : 0 < n) (hf : ∀ l < n, f l = identityWord (1024 * i + j0 + l))
    (hword : ∀ i < 1024, ∀ j < 1024, lookup m K.kernelPageDirectory i j =
      if 1024 * i + j ∈ pages then identityWord (1024 * i + j) else 0)
    (hslot : ∀ i' < 1024, isPresent (entry m K.kernelPageDirectory i') = true ↔
      (∃ k ∈ pages, k / 1024 = i') ∨ i' = i) :
    Identity K (m.storeWords ((pageOf (entry m K.kernelPageDirectory i)).toNat + 4 * j0) n f)
      (pages ∪ Finset.Ico (1024 * i + j0) (1024 * i + j0 + n)) := by
  refine ⟨fun i' hi' j hj => ?_, fun i' hi' => ?_⟩
  · rw [(h.lookup_fill hi hp hn hi' hj).2, hword i' hi' j hj]
    by_cases hin : i' = i ∧ j0 ≤ j ∧ j < j0 + n
    · obtain ⟨rfl, hlo, hhi⟩ := hin
      rw [if_pos ⟨rfl, hlo, hhi⟩, if_pos (Finset.mem_union_right _ (Finset.mem_Ico.mpr (by omega))),
        hf _ (by omega)]
      congr 1
      omega
    · have hnot : 1024 * i' + j ∉ Finset.Ico (1024 * i + j0) (1024 * i + j0 + n) := by
        rw [Finset.mem_Ico]
        omega
      rw [if_neg hin]
      simp only [Finset.mem_union, hnot, or_false]
  · rw [(h.lookup_fill hi hp hn hi' (j := 0) (by omega)).1, hslot i' hi']
    constructor
    · rintro (⟨k, hk, hki⟩ | rfl)
      · exact ⟨k, Finset.mem_union_left _ hk, hki⟩
      · exact ⟨1024 * i' + j0, Finset.mem_union_right _ (Finset.mem_Ico.mpr (by omega)), by omega⟩
    · rintro ⟨k, hk, hki⟩
      rcases Finset.mem_union.mp hk with hk | hk
      · exact .inl ⟨k, hk, hki⟩
      · have := Finset.mem_Ico.mp hk
        exact .inr (by omega)

end Lookup

namespace Paging

variable {K : KernelStatics} {m : Mem} {role : ℕ → Role} {stop address t : UInt32}

/-! ### The identity tables -/

/-- Before the loops over the tables no entry of the directory is present. -/
theorem identity_empty (K : KernelStatics) (m : Mem) :
    Identity K (clearKernelSpace packedLayout K m) ∅ := by
  refine ⟨fun i hi j hj => ?_, fun i hi => ?_⟩
  · unfold lookup
    rw [not_present_empty K m hi]
    simp
  · rw [not_present_empty K m hi]
    simp

/-- The loop over the identity tables maps the pages below `n` times 4 MiB. -/
theorem identity_identity (h : Booting K m role 0 0) (hid : Identity K m ∅) : ∀ n ≤ 32, ∃ role',
    Booting K ((List.range n).foldl (identityRound K) m) role' n 0 ∧
    Identity K ((List.range n).foldl (identityRound K) m) (Finset.range (1024 * n))
  | 0, _ => ⟨role, h, hid⟩
  | n + 1, hn => by
    obtain ⟨role', h', hid'⟩ := identity_identity h hid n (by omega)
    obtain ⟨role'', h''⟩ := booting_identity_step h' (by omega)
    rw [List.range_succ, List.foldl_append, List.foldl_cons, List.foldl_nil]
    refine ⟨role'', h'', ?_⟩
    generalize (List.range n).foldl _ m = m' at *
    unfold identityRound
    have hb := K.bounds
    have halign := K.identity_aligned
    have hlt := K.kernelEnd.toNat_lt
    have ht := Word.toNat_add_ofNat (a := K.identityPageTables) (n := 4096 * n) (by omega)
    have hother := h'.identity_free n le_rfl (by omega)
    generalize K.identityPageTables + UInt32.ofNat (4096 * n) = t at *
    have htalign : t.toNat % 4096 = 0 := by omega
    rw [← ht] at hother
    obtain ⟨hpresent, hpage⟩ := present_supervisor htalign
    have hinstall := fun i' (hi' : i' < 1024) j (hj : j < 1024) =>
      h'.tables.lookup_install (i := n) (c := fun entry =>
        UInt32.ofNat ((n * pageEntries + entry) * 4096) ||| pagePresent ||| pageWritable) htalign
        hother hpage hpresent hi' hj
    -- slot `n` gets its 1024 pages, and the others keep theirs
    refine ⟨fun i hi j hj => ?_, fun i hi => ?_⟩
    · rw [(hinstall i hi j hj).2 (by omega), hid'.word i hi j hj]
      simp only [Finset.mem_range]
      by_cases hin : i = n
      · subst hin
        rw [if_pos rfl, if_pos (by omega), identityWord, pageEntries, Nat.mul_comm i 1024]
      · rw [if_neg hin]
        by_cases hlt' : 1024 * i + j < 1024 * n
        · rw [if_pos hlt', if_pos (by omega)]
        · rw [if_neg hlt', if_neg (by omega)]
    · rw [(hinstall i hi 0 (by omega)).1]
      by_cases hin : i = n
      · rw [if_pos hin]
        exact iff_of_true hpresent ⟨1024 * n, Finset.mem_range.mpr (by omega), by omega⟩
      · rw [if_neg hin, hid'.slot i hi]
        constructor
        · rintro ⟨k, hk, hki⟩
          have := Finset.mem_range.mp hk
          exact ⟨k, Finset.mem_range.mpr (by omega), hki⟩
        · rintro ⟨k, hk, hki⟩
          have := Finset.mem_range.mp hk
          exact ⟨k, Finset.mem_range.mpr (by omega), hki⟩

/-! ### The nested loop -/

/-- The local variables of the loop over the framebuffer: `inner` holds `table` and `table_index`
while the inner loop runs. -/
structure Sweep where
  mem : Mem
  address : UInt32
  slots : ℕ
  inner : Option (UInt32 × ℕ)

/-- One round of the inner loop, or the entry into it, or its end; `none` is the end of the outer
loop, be it by its condition or by `break`. -/
def Sweep.step (K : KernelStatics) (stop : UInt32) (s : Sweep) : Option Sweep :=
  match s.inner with
  | some (table, index) =>
    if index < pageEntries ∧ s.address < stop then
      some { s with
        mem := setEntry s.mem table index (s.address ||| pagePresent ||| pageWritable)
        address := s.address + pageSize
        inner := some (table, index + 1) }
    else some { s with inner := none }
  | none =>
    let directory := directoryIndex s.address
    let index := tableIndex s.address
    if s.address ≥ stop then none
    else if isPresent (entry s.mem K.kernelPageDirectory directory) then
      some { s with inner := some (pageOf (entry s.mem K.kernelPageDirectory directory), index) }
    else if s.slots ≥ framebufferPageTableCount then none
    else
      let table := K.framebufferPageTables + UInt32.ofNat (4096 * s.slots)
      let m := zeroPageTable s.mem table
      let m := setEntry m K.kernelPageDirectory directory (table ||| pagePresent ||| pageWritable)
      some { s with
        mem := m
        slots := s.slots + 1
        inner := some (pageOf (entry m K.kernelPageDirectory directory), index) }

/-- The loop goes from one state to another. -/
def Sweep.Goes (K : KernelStatics) (stop : UInt32) : Sweep → Sweep → Prop :=
  Relation.ReflTransGen fun s s' => s.step K stop = some s'

/-- The loop goes from one state to another and ends there. -/
def Sweep.Ends (K : KernelStatics) (stop : UInt32) (s s' : Sweep) : Prop :=
  Goes K stop s s' ∧ s'.step K stop = none

/-- The inner loop writes a row of entries. -/
theorem Sweep.goes_inner {slots index : ℕ} : ∀ count : ℕ,
    address.toNat + 4096 * count ≤ stop.toNat → index + count ≤ 1024 →
    Goes K stop ⟨m, address, slots, some (t, index)⟩ ⟨m.storeWords (t.toNat + 4 * index) count
          fun j => (address + UInt32.ofNat (4096 * j)) ||| pagePresent ||| pageWritable,
        address + UInt32.ofNat (4096 * count), slots, some (t, index + count)⟩
  | 0, _, _ => by
    rw [Mem.storeWords_zero, show address + UInt32.ofNat (4096 * 0) = address by simp]
    exact Relation.ReflTransGen.refl
  | count + 1, hstop, hindex => by
    refine (goes_inner count (by omega) (by omega)).tail ?_
    have hlt := stop.toNat_lt
    have haddr := Word.toNat_add_ofNat (a := address) (n := 4096 * count) (by omega)
    have hnext : address + UInt32.ofNat (4096 * count) + pageSize
        = address + UInt32.ofNat (4096 * (count + 1)) := by
      apply UInt32.toNat_inj.mp
      rw [UInt32.toNat_add, haddr, Word.toNat_add_ofNat (by omega)]
      change (address.toNat + 4096 * count + 4096) % 2 ^ 32 = _
      omega
    unfold step
    dsimp only
    rw [if_pos ⟨by unfold pageEntries; omega, UInt32.lt_iff_toNat_lt.mpr (by omega)⟩, hnext,
      Mem.storeWords_succ]
    have hplace : t.toNat + 4 * index + 4 * count = t.toNat + 4 * (index + count) := by omega
    rw [hplace]
    rfl

/-- The inner loop runs to the end of the table or of the framebuffer, and ends. -/
theorem Sweep.goes_table {slots index : ℕ} (hindex : index < 1024)
    (hle : address.toNat ≤ stop.toNat) (halign : (stop.toNat - address.toNat) % 4096 = 0) :
    Goes K stop ⟨m, address, slots, some (t, index)⟩ ⟨m.storeWords (t.toNat + 4 * index)
          (min (pageEntries - index) ((stop.toNat - address.toNat) / 4096))
          fun j => (address + UInt32.ofNat (4096 * j)) ||| pagePresent ||| pageWritable,
        address + UInt32.ofNat
          (4096 * min (pageEntries - index) ((stop.toNat - address.toNat) / 4096)),
        slots, none⟩ := by
  have hcount : min (pageEntries - index) ((stop.toNat - address.toNat) / 4096)
      = min (1024 - index) ((stop.toNat - address.toNat) / 4096) := rfl
  rw [hcount]
  generalize hc : min (1024 - index) ((stop.toNat - address.toNat) / 4096) = count
  have hlt := stop.toNat_lt
  have haddr := Word.toNat_add_ofNat (a := address) (n := 4096 * count) (by omega)
  refine (goes_inner count (by omega) (by omega)).tail ?_
  unfold step
  dsimp only
  rw [if_neg]
  rintro ⟨h1, h2⟩
  have h2' := UInt32.lt_iff_toNat_lt.mp h2
  omega

/-! ### The loop over the framebuffer -/

/-- The 4 MiB slots behind 128 MiB that the pages from `first` up to `last` touch. -/
def framebufferSlots (first last : ℕ) : Finset ℕ :=
  ((Finset.Ico first last).filter fun k => 32768 ≤ k).image fun k => k / 1024

theorem mem_framebufferSlots {first last i : ℕ} :
    i ∈ framebufferSlots first last ↔ ∃ k, first ≤ k ∧ k < last ∧ 32768 ≤ k ∧ k / 1024 = i := by
  simp only [framebufferSlots, Finset.mem_image, Finset.mem_filter, Finset.mem_Ico, and_assoc]

/-- One more run of pages inside a slot. -/
theorem framebufferSlots_add {first cur n : ℕ} (hfirst : first ≤ cur) (hpos : 0 < n)
    (hslot : cur % 1024 + n ≤ 1024) :
    framebufferSlots first (cur + n) =
      if 32768 ≤ cur then insert (cur / 1024) (framebufferSlots first cur)
      else framebufferSlots first cur := by
  ext i
  by_cases hhigh : 32768 ≤ cur
  · rw [if_pos hhigh, Finset.mem_insert, mem_framebufferSlots, mem_framebufferSlots]
    constructor
    · rintro ⟨k, h1, h2, h3, h4⟩
      by_cases hk : k < cur
      · exact .inr ⟨k, h1, hk, h3, h4⟩
      · exact .inl (by omega)
    · rintro (rfl | ⟨k, h1, h2, h3, h4⟩)
      · exact ⟨cur, hfirst, by omega, hhigh, rfl⟩
      · exact ⟨k, h1, by omega, h3, h4⟩
  · rw [if_neg hhigh, mem_framebufferSlots, mem_framebufferSlots]
    constructor
    · rintro ⟨k, h1, h2, h3, h4⟩
      omega
    · rintro ⟨k, h1, h2, h3, h4⟩
      exact ⟨k, h1, by omega, h3, h4⟩

/-- What the loop has reached at the page `cur` of the framebuffer, which begins with `first`. -/
structure Swept (K : KernelStatics) (m : Mem) (role : ℕ → Role) (slots first cur : ℕ) : Prop where
  booting : Booting K m role 32 slots
  identity : Identity K m (Finset.range 32768 ∪ Finset.Ico first cur)
  slots_eq : slots = (framebufferSlots first cur).card

section Round

variable {slots first cur n : ℕ} {address : UInt32}

/-- The words of a run of pages. -/
theorem address_word (haddr : address.toNat = 4096 * cur) {l : ℕ} (hfit : cur + l < 2 ^ 20) :
    (address + UInt32.ofNat (4096 * l)) ||| pagePresent ||| pageWritable
      = identityWord (cur + l) := by
  have hpage : address + UInt32.ofNat (4096 * l) = UInt32.ofNat ((cur + l) * 4096) := by
    apply UInt32.toNat_inj.mp
    rw [Word.toNat_add_ofNat (by omega), UInt32.toNat_ofNat_of_lt' (by unfold UInt32.size; omega)]
    omega
  rw [identityWord, hpage]

/-- A slot has a table when it lies below 128 MiB or an earlier page of the framebuffer is in it. -/
theorem Swept.present_iff (h : Swept K m role slots first cur) {i : ℕ} (hi : i < 1024) :
    isPresent (entry m K.kernelPageDirectory i) = true ↔
      i < 32 ∨ i ∈ framebufferSlots first cur := by
  rw [h.identity.slot i hi, mem_framebufferSlots]
  simp only [Finset.mem_union, Finset.mem_range, Finset.mem_Ico]
  constructor
  · rintro ⟨k, hk, hki⟩
    by_cases hlow : k < 32768
    · exact .inl (by omega)
    · exact .inr ⟨k, by omega, by omega, by omega, hki⟩
  · rintro (hlow | ⟨k, h1, h2, h3, h4⟩)
    · exact ⟨1024 * i, by omega, by omega⟩
    · exact ⟨k, .inr ⟨h1, h2⟩, h4⟩

/-- A round, once the slot has a table. -/
theorem Swept.round (hboot : Booting K m role 32 slots)
    (haddr : address.toNat = 4096 * cur) (hfirst : first ≤ cur) (hpos : 0 < n)
    (hslot : cur % 1024 + n ≤ 1024)
    (hp : isPresent (entry m K.kernelPageDirectory (cur / 1024)) = true)
    (hword : ∀ i < 1024, ∀ j < 1024, lookup m K.kernelPageDirectory i j =
      if 1024 * i + j ∈ Finset.range 32768 ∪ Finset.Ico first cur then
        identityWord (1024 * i + j) else 0)
    (hslots : ∀ i < 1024, isPresent (entry m K.kernelPageDirectory i) = true ↔
      (∃ k ∈ Finset.range 32768 ∪ Finset.Ico first cur, k / 1024 = i) ∨ i = cur / 1024)
    (hcard : slots = (framebufferSlots first (cur + n)).card) :
    Swept K (m.storeWords ((pageOf (entry m K.kernelPageDirectory (cur / 1024))).toNat
        + 4 * (cur % 1024)) n
      fun j => (address + UInt32.ofNat (4096 * j)) ||| pagePresent ||| pageWritable)
      role slots first (cur + n) := by
  have hlt := address.toNat_lt
  have hi : cur / 1024 < 1024 := by omega
  refine ⟨booting_fill hboot hi hp hslot fun l => isUser_supervisor ?_, ?_, hcard⟩
  · rw [UInt32.toNat_add, UInt32.toNat_ofNat']
    omega
  · have hfill := Identity.fill _ (f := fun j => (address + UInt32.ofNat (4096 * j)) ||| pagePresent
      ||| pageWritable) hboot.tables hi hp hslot hpos (fun l hl => ?_) hword hslots
    · convert hfill using 1
      ext k
      simp only [Finset.mem_union, Finset.mem_range, Finset.mem_Ico]
      omega
    · rw [address_word haddr (by omega)]
      congr 1
      omega

section

variable (h : Swept K m role slots first cur) (hfirst : first ≤ cur)
  (haddr : address.toNat = 4096 * cur) (hpos : 0 < n)
include h hfirst haddr hpos

/-- A round in a slot that has a table. -/
theorem Swept.fill (hslot : cur % 1024 + n ≤ 1024)
    (hp : isPresent (entry m K.kernelPageDirectory (cur / 1024)) = true) :
    Swept K (m.storeWords ((pageOf (entry m K.kernelPageDirectory (cur / 1024))).toNat
        + 4 * (cur % 1024)) n
      fun j => (address + UInt32.ofNat (4096 * j)) ||| pagePresent ||| pageWritable)
      role slots first (cur + n) := by
  have hlt := address.toNat_lt
  have hi : cur / 1024 < 1024 := by omega
  refine .round h.booting haddr hfirst hpos hslot hp h.identity.word (fun i' hi' =>
    (h.identity.slot i' hi').trans (or_iff_left_of_imp ?_).symm) ?_
  · rintro rfl
    exact (h.identity.slot _ hi).mp hp
  · rw [framebufferSlots_add hfirst hpos hslot, h.slots_eq]
    by_cases hhigh : 32768 ≤ cur
    · have hmem := ((h.present_iff hi).mp hp).resolve_left (by omega)
      rw [if_pos hhigh, Finset.insert_eq_of_mem hmem]
    · rw [if_neg hhigh]

/-- A round in a slot that has none: the next table of the framebuffer is put there first. -/
theorem Swept.install (hslot : cur % 1024 + n ≤ 1024)
    (hp : isPresent (entry m K.kernelPageDirectory (cur / 1024)) = false) (hslots : slots < 8)
    {t : UInt32} (ht : t = K.framebufferPageTables + UInt32.ofNat (4096 * slots)) {m1 : Mem}
    (hm1 : m1 = setEntry (zeroPageTable m t) K.kernelPageDirectory (cur / 1024)
      (t ||| pagePresent ||| pageWritable)) :
    ∃ role', Swept K (m1.storeWords ((pageOf (entry m1 K.kernelPageDirectory (cur / 1024))).toNat
        + 4 * (cur % 1024)) n
      fun j => (address + UInt32.ofNat (4096 * j)) ||| pagePresent ||| pageWritable)
      role' (slots + 1) first (cur + n) := by
  have hlt := address.toNat_lt
  have hi : cur / 1024 < 1024 := by omega
  obtain ⟨role', hboot, htn, hother⟩ := booting_slot h.booting hi hslots ht
  have halign := K.framebuffer_aligned
  have htalign : t.toNat % 4096 = 0 := by omega
  obtain ⟨hpresent, hpage⟩ := present_supervisor htalign
  have hinstall := fun i' (hi' : i' < 1024) j (hj : j < 1024) =>
    h.booting.tables.lookup_install (i := cur / 1024) (c := fun _ => 0) htalign hother hpage
      hpresent hi' hj
  have hzero : (m.storeWords t.toNat pageEntries fun _ => 0) = zeroPageTable m t := rfl
  rw [hzero, ← hm1] at hinstall
  rw [← hm1] at hboot
  have hent : entry m1 K.kernelPageDirectory (cur / 1024) = t ||| pagePresent ||| pageWritable := by
    rw [(hinstall _ hi 0 (by omega)).1, if_pos rfl]
  have hp1 : isPresent (entry m1 K.kernelPageDirectory (cur / 1024)) = true := by
    rw [hent]
    exact hpresent
  have hnone : ¬ (cur / 1024 < 32 ∨ cur / 1024 ∈ framebufferSlots first cur) := by
    rw [← h.present_iff hi, hp]
    simp
  refine ⟨role', .round hboot haddr hfirst hpos hslot hp1 (fun i' hi' j hj => ?_)
    (fun i' hi' => ?_) ?_⟩
  · -- the new table is empty, and the slot had no page before
    rw [(hinstall i' hi' j hj).2 hi]
    by_cases hii : i' = cur / 1024
    · rw [if_pos hii, if_neg]
      intro hmem
      have := (h.identity.slot i' hi').mpr ⟨_, hmem, by omega⟩
      rw [hii, hp] at this
      cases this
    · rw [if_neg hii]
      exact h.identity.word i' hi' j hj
  · rw [(hinstall i' hi' 0 (by omega)).1, ← h.identity.slot i' hi']
    by_cases hii : i' = cur / 1024
    · rw [if_pos hii]
      exact iff_of_true hpresent (.inr hii)
    · rw [if_neg hii]
      exact (or_iff_left hii).symm
  · have hhigh : 32768 ≤ cur := by omega
    rw [framebufferSlots_add hfirst hpos hslot, if_pos hhigh,
      Finset.card_insert_of_notMem fun h0 => hnone (.inr h0), h.slots_eq]

end

end Round

/-- **The loop over the framebuffer** ends, in the memory that `mapFramebuffer` computes, and has
then mapped every page. The induction is on the number of pages that are left. -/
theorem framebuffer_exact {first last : ℕ} {stop : UInt32} (hstop : stop.toNat = 4096 * last)
    (hfew : (framebufferSlots first last).card ≤ 8) :
    ∀ (n : ℕ) {m : Mem} {role : ℕ → Role} {slots cur : ℕ} {address : UInt32},
      first ≤ cur → cur ≤ last → last - cur ≤ n → address.toNat = 4096 * cur →
      Swept K m role slots first cur →
      ∃ role' slots', Swept K (mapFramebuffer K n m address stop slots) role' slots' first last ∧
        Sweep.Goes K stop ⟨m, address, slots, none⟩
          ⟨mapFramebuffer K n m address stop slots, stop, slots', none⟩
  | 0, m, role, slots, cur, address, hfirst, hcur, hfuel, haddr, h => by
    obtain rfl : cur = last := by omega
    obtain rfl : address = stop := UInt32.toNat_inj.mp (by omega)
    exact ⟨role, slots, h, Relation.ReflTransGen.refl⟩
  | n + 1, m, role, slots, cur, address, hfirst, hcur, hfuel, haddr, h => by
    have hlt := stop.toNat_lt
    by_cases hend : cur = last
    · -- nothing is left
      subst hend
      obtain rfl : address = stop := UInt32.toNat_inj.mp (by omega)
      unfold mapFramebuffer
      rw [if_pos (UInt32.le_refl _)]
      exact ⟨role, slots, h, Relation.ReflTransGen.refl⟩
    · have hdi : directoryIndex address = cur / 1024 := by
        rw [directoryIndex_eq]
        omega
      have hti : tableIndex address = cur % 1024 := by
        rw [tableIndex_eq]
        omega
      -- the pages of this round stay inside the slot
      obtain ⟨count, hcount⟩ : ∃ count, count = min (pageEntries - cur % 1024)
        ((stop.toNat - address.toNat) / 4096) := ⟨_, rfl⟩
      have hcount' : count = min (1024 - cur % 1024) (last - cur) := by
        rw [hcount]
        unfold pageEntries
        omega
      have hnext : (address + UInt32.ofNat (4096 * count)).toNat = 4096 * (cur + count) := by
        rw [Word.toNat_add_ofNat (by omega)]
        omega
      have hge : ¬ address ≥ stop := fun h0 => by
        have := UInt32.le_iff_toNat_le.mp h0
        omega
      unfold mapFramebuffer
      dsimp only
      rw [if_neg hge, hdi, hti, ← hcount]
      by_cases hp : isPresent (entry m K.kernelPageDirectory (cur / 1024)) = true
      · rw [if_pos hp]
        obtain ⟨role', slots', hswept, hgoes⟩ := framebuffer_exact hstop hfew n
          (show first ≤ cur + count by omega) (by omega) (by omega) hnext
          (h.fill hfirst haddr (by omega) (by omega) hp)
        have hstep : Sweep.step K stop ⟨m, address, slots, none⟩ = some ⟨m, address, slots,
            some (pageOf (entry m K.kernelPageDirectory (cur / 1024)), cur % 1024)⟩ := by
          unfold Sweep.step
          dsimp only
          rw [if_neg hge, hdi, hti, if_pos hp]
        refine ⟨role', slots', hswept, Relation.ReflTransGen.head hstep (.trans ?_ hgoes)⟩
        rw [hcount]
        exact Sweep.goes_table (by omega) (by omega) (by omega)
      · -- a new table is needed, and one is left
        have hmem : cur / 1024 ∈ framebufferSlots first last ∧
            cur / 1024 ∉ framebufferSlots first cur := by
          have hnone := fun h0 => hp ((h.present_iff (show cur / 1024 < 1024 by omega)).mpr h0)
          have hhigh : 32768 ≤ cur := by
            by_contra hlow
            exact hnone (.inl (by omega))
          exact ⟨mem_framebufferSlots.mpr ⟨cur, hfirst, by omega, hhigh, rfl⟩,
            fun h0 => hnone (.inr h0)⟩
        have hslots : slots < 8 := by
          have hsub : framebufferSlots first cur ⊆ framebufferSlots first last := fun i hi => by
            obtain ⟨k, h1, h2, h3, h4⟩ := mem_framebufferSlots.mp hi
            exact mem_framebufferSlots.mpr ⟨k, h1, by omega, h3, h4⟩
          have := Finset.card_lt_card (Finset.ssubset_iff_subset_ne.mpr
            ⟨hsub, fun h0 => hmem.2 (h0 ▸ hmem.1)⟩)
          rw [← h.slots_eq] at this
          omega
        have hslots' : ¬ slots ≥ framebufferPageTableCount := by
          unfold framebufferPageTableCount
          omega
        rw [if_neg hp, if_neg hslots']
        obtain ⟨role1, h1⟩ := h.install hfirst haddr (show 0 < count by omega) (by omega)
          (by simpa using hp) hslots rfl rfl
        obtain ⟨role', slots', hswept, hgoes⟩ := framebuffer_exact hstop hfew n
          (show first ≤ cur + count by omega) (by omega) (by omega) hnext h1
        generalize hm1 : setEntry (zeroPageTable m (K.framebufferPageTables +
          UInt32.ofNat (4096 * slots))) K.kernelPageDirectory (cur / 1024)
            (K.framebufferPageTables + UInt32.ofNat (4096 * slots) ||| pagePresent |||
              pageWritable) = m1 at hgoes hswept ⊢
        have hstep : Sweep.step K stop ⟨m, address, slots, none⟩ = some ⟨m1, address, slots + 1,
            some (pageOf (entry m1 K.kernelPageDirectory (cur / 1024)), cur % 1024)⟩ := by
          unfold Sweep.step
          dsimp only
          rw [if_neg hge, hdi, hti, if_neg hp, if_neg hslots', hm1]
        refine ⟨role', slots', hswept, Relation.ReflTransGen.head hstep (.trans ?_ hgoes)⟩
        rw [hcount]
        exact Sweep.goes_table (by omega) (by omega) (by omega)

/-! ### The translation of the kernel -/

/-- Both entries for the address are present. -/
def isMapped (L : SpaceLayout) (st : Paging) (space virtualAddress : UInt32) : Bool :=
  isPresent (lookup st.mem (pageDirectory L st space) (directoryIndex virtualAddress)
    (tableIndex virtualAddress))

/-- `paging_get_physical_in_space` reads the entry through the directory. -/
theorem pagingGetPhysicalInSpace_eq {L : SpaceLayout} {st : Paging} {s : UInt32} (hs : s ≠ 0)
    (hd : pageDirectory L st s ≠ 0) (u : UInt32) :
    pagingGetPhysicalInSpace L st s u = if isMapped L st s u then
        pageOf (lookup st.mem (pageDirectory L st s) (directoryIndex u) (tableIndex u))
          ||| (u &&& (pageSize - 1))
      else 0 := by
  unfold pagingGetPhysicalInSpace isMapped lookup
  rw [if_neg (not_or.mpr ⟨hs, hd⟩)]
  by_cases hp : isPresent (entry st.mem (pageDirectory L st s) (directoryIndex u)) = true
  · rw [if_neg (by simp [hp]), if_pos hp]
    by_cases ht : isPresent (entry st.mem
        (pageOf (entry st.mem (pageDirectory L st s) (directoryIndex u))) (tableIndex u)) = true
    · rw [if_neg (by simp [ht]), if_pos ht]
    · rw [if_pos (by simpa using ht), if_neg ht]
  · rw [if_pos (by simpa using hp), if_neg hp, if_neg (by decide)]

/-- The page of an address and the offset in it make up the address. -/
theorem page_or_offset {a u : UInt32} (ha : a.toNat % 4096 = 0) :
    (a ||| (u &&& (pageSize - 1))).toNat = a.toNat + u.toNat % 4096 := by
  rw [UInt32.toNat_or, show (u &&& (pageSize - 1)).toNat = u.toNat % 4096 from
    Word.toNat_and_mask (k := 12) u rfl]
  have hlow : u.toNat % 4096 < 2 ^ 12 := Nat.mod_lt _ (by decide)
  have := Nat.two_pow_add_eq_or_of_lt hlow (a.toNat / 4096)
  rw [show 2 ^ 12 * (a.toNat / 4096) = a.toNat by omega] at this
  exact this.symm

/-- A page that overlaps the framebuffer of `size` bytes at `physical`. -/
def OverlapsFramebuffer (physical size u : UInt32) : Prop :=
  u.toNat / 4096 * 4096 < physical.toNat + size.toNat ∧
    physical.toNat < u.toNat / 4096 * 4096 + 4096

instance (physical size u : UInt32) : Decidable (OverlapsFramebuffer physical size u) :=
  inferInstanceAs (Decidable (_ ∧ _))

/-- The state `st` after `paging_initialize` with a framebuffer of `size` bytes at `physical`. -/
structure BootMap (K : KernelStatics) (physical size : UInt32) (st : Paging) : Prop where
  current : st.currentSpace = K.kernelSpace
  /-- The first 128 MiB and the pages of the framebuffer are mapped, and nothing else. -/
  mapped : ∀ u, isMapped packedLayout st K.kernelSpace u = true ↔
    u.toNat < 0x8000000 ∨ OverlapsFramebuffer physical size u
  /-- What is mapped is mapped to itself. -/
  translates : ∀ u, pagingGetPhysicalInSpace packedLayout st K.kernelSpace u =
    if u.toNat < 0x8000000 ∨ OverlapsFramebuffer physical size u then u else 0

theorem isPresent_identityWord (k : ℕ) : isPresent (identityWord k) = true := by
  rw [identityWord, isPresent_or, isPresent_or]
  simp [show isPresent pagePresent = true from rfl]

theorem pageOf_identityWord {k : ℕ} (hk : k < 2 ^ 20) :
    (pageOf (identityWord k)).toNat = k * 4096 := by
  rw [identityWord, pageOf_or _ (by decide), pageOf_or _ (by decide), pageOf_toNat,
    UInt32.toNat_ofNat_of_lt' (by unfold UInt32.size; omega)]
  omega

/-- The translation that the tables give. -/
theorem translates_of_identity {st : Paging} {pages : Finset ℕ} (hid : Identity K st.mem pages)
    (hdir : pageDirectory packedLayout st K.kernelSpace = K.kernelPageDirectory) (u : UInt32) :
    (isMapped packedLayout st K.kernelSpace u = true ↔ u.toNat / 4096 ∈ pages) ∧
    pagingGetPhysicalInSpace packedLayout st K.kernelSpace u
      = if u.toNat / 4096 ∈ pages then u else 0 := by
  have hb := K.bounds
  have hs : K.kernelSpace ≠ 0 := by
    intro h0
    rw [h0] at hb
    exact absurd hb.2.2.2.2.2 (by decide)
  have hd : pageDirectory packedLayout st K.kernelSpace ≠ 0 := by
    rw [hdir]
    intro h0
    rw [h0] at hb
    exact absurd hb.2.2.2.2.1 (by decide)
  have hlt := u.toNat_lt
  have hk : 1024 * directoryIndex u + tableIndex u = u.toNat / 4096 := by
    rw [directoryIndex_eq, tableIndex_eq]
    omega
  have hword := hid.word _ (directoryIndex_lt u) _ (tableIndex_lt u)
  rw [hk] at hword
  have hmapped : isMapped packedLayout st K.kernelSpace u = true ↔ u.toNat / 4096 ∈ pages := by
    unfold isMapped
    rw [hdir, hword]
    by_cases hin : u.toNat / 4096 ∈ pages
    · rw [if_pos hin]
      exact iff_of_true (isPresent_identityWord _) hin
    · rw [if_neg hin]
      exact iff_of_false (by decide) hin
  refine ⟨hmapped, ?_⟩
  rw [pagingGetPhysicalInSpace_eq hs hd, hdir, hword]
  by_cases hin : u.toNat / 4096 ∈ pages
  · rw [if_pos (hmapped.mpr hin), if_pos hin, if_pos hin]
    apply UInt32.toNat_inj.mp
    rw [page_or_offset (pageOf_aligned _), pageOf_identityWord (by omega)]
    omega
  · rw [if_neg fun h0 => hin (hmapped.mp h0), if_neg hin]

/-- The last write of `paging_initialize` changes no table. -/
theorem identity_store {pages : Finset ℕ} {slots : ℕ} (h : Booting K m role 32 slots)
    (hid : Identity K m pages) :
    Identity K (m.store32 (packedLayout.directoryAt K.kernelSpace) K.kernelPageDirectory)
      pages := by
  have hdir : ∀ i < 1024, entry
      (m.store32 (packedLayout.directoryAt K.kernelSpace) K.kernelPageDirectory)
        K.kernelPageDirectory i = entry m K.kernelPageDirectory i := fun i hi =>
    entry_of_page K.directory_aligned hi fun a ha => h.store_frame (by
      rw [ha, h.tables.dir_role]
      simp)
  refine ⟨fun i hi j hj => ?_, fun i hi => ?_⟩
  · rw [← hid.word i hi j hj]
    unfold lookup
    rw [hdir i hi]
    by_cases hp : isPresent (entry m K.kernelPageDirectory i) = true
    · rw [if_pos hp, if_pos hp]
      exact entry_of_page (pageOf_aligned _) hj fun a ha => h.store_frame (by
        rw [ha, h.tables.table i hi hp]
        simp)
    · rw [if_neg hp, if_neg hp]
  · rw [hdir i hi]
    exact hid.slot i hi

/-- **`paging_initialize` with a framebuffer.** For every framebuffer whose end is a 32-bit number
and whose pages behind 128 MiB touch at most eight slots: the loop over its pages ends, and the
kernel then translates the first 128 MiB and the pages of the framebuffer to themselves, and
nothing else. -/
theorem pagingInitialize_bootMap (K : KernelStatics) (m : Mem) (pmm : Pmm)
    {physical size : UInt32} (hphysical : physical ≠ 0) (hsize : size ≠ 0)
    (hend : physical.toNat + size.toNat + 4095 < 2 ^ 32)
    (hfew : (framebufferSlots (physical.toNat / 4096)
      ((physical.toNat + size.toNat + 4095) / 4096)).card ≤ 8) :
    (∃ final, Sweep.Ends K (pageOf (physical + size + pageSize - 1))
        ⟨mapIdentity K (clearKernelSpace packedLayout K m), pageOf physical, 0, none⟩ final ∧
      (pagingInitialize packedLayout K m pmm physical size).mem
        = final.mem.store32 (packedLayout.directoryAt K.kernelSpace) K.kernelPageDirectory) ∧
    BootMap K physical size (pagingInitialize packedLayout K m pmm physical size) := by
  obtain ⟨role, hboot, hid⟩ := identity_identity (booting_empty K m) (identity_empty K m) 32 le_rfl
  have hstart : (pageOf physical).toNat = 4096 * (physical.toNat / 4096) := by
    rw [pageOf_toNat]
    omega
  have hstop : (pageOf (physical + size + pageSize - 1)).toNat
      = 4096 * ((physical.toNat + size.toNat + 4095) / 4096) := by
    have hsum : (physical + size + pageSize - 1).toNat = physical.toNat + size.toNat + 4095 := by
      rw [UInt32.toNat_sub, UInt32.toNat_add, UInt32.toNat_add]
      change (2 ^ 32 - 1 + ((physical.toNat + size.toNat) % 2 ^ 32 + 4096) % 2 ^ 32) % 2 ^ 32 = _
      omega
    rw [pageOf_toNat, hsum]
    omega
  have hswept : Swept K _ role 0 (physical.toNat / 4096) (physical.toNat / 4096) :=
    ⟨hboot, by simpa using hid, by simp [framebufferSlots]⟩
  obtain ⟨role', slots', hswept', hgoes⟩ := framebuffer_exact hstop hfew
    (((pageOf (physical + size + pageSize - 1)).toNat - (pageOf physical).toNat) / 4096)
    le_rfl (by omega) (by omega) hstart hswept
  have hmem : (pagingInitialize packedLayout K m pmm physical size).mem = (mapFramebuffer K
          (((pageOf (physical + size + pageSize - 1)).toNat - (pageOf physical).toNat) / 4096)
          (mapIdentity K (clearKernelSpace packedLayout K m))
          (pageOf physical) (pageOf (physical + size + pageSize - 1)) 0).store32
        (packedLayout.directoryAt K.kernelSpace) K.kernelPageDirectory := by
    unfold pagingInitialize
    dsimp only
    rw [if_pos ⟨hphysical, hsize⟩]
  have hdir : pageDirectory packedLayout (pagingInitialize packedLayout K m pmm physical size)
      K.kernelSpace = K.kernelPageDirectory := Mem.load32_store32_self ..
  have hfinal := identity_store hswept'.booting hswept'.identity
  have hmap := fun u => translates_of_identity (hmem ▸ hfinal) hdir u
  -- the pages of the framebuffer in the words of their addresses
  have hpages : ∀ u : UInt32, u.toNat / 4096 ∈ Finset.range 32768 ∪
      Finset.Ico (physical.toNat / 4096) ((physical.toNat + size.toNat + 4095) / 4096) ↔
        u.toNat < 0x8000000 ∨ OverlapsFramebuffer physical size u := by
    intro u
    simp only [Finset.mem_union, Finset.mem_range, Finset.mem_Ico, OverlapsFramebuffer]
    omega
  refine ⟨⟨_, ⟨hgoes, if_pos (UInt32.le_refl _)⟩, hmem⟩, rfl, fun u => ?_, fun u => ?_⟩
  · rw [(hmap u).1, hpages]
  · rw [(hmap u).2]
    simp only [hpages]

/-- A framebuffer that begins and ends inside a page, and crosses the border of a slot. -/
theorem pagingInitialize_bootMap_fd3fe800 : BootMap smallKernel 0xFD3FE800 0x3000
      (pagingInitialize packedLayout smallKernel ⟨fun _ => 0⟩ Pmm.holeStart 0xFD3FE800 0x3000) :=
  (pagingInitialize_bootMap smallKernel _ _ (by decide) (by decide) (by decide)
    (by decide +kernel)).2

end Paging

end MyOS
