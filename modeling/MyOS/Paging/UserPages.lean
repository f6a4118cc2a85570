import MyOS.Paging.Isolation

/-!
# Pages for user mode

Which pages a program in user mode can reach. In a run that keeps away from `owned_tables[1023]`
they are those that a call has mapped for user mode. A run that does not can give a process the
tables of another one: the word behind the page of a structure may lie in a directory.
-/

namespace MyOS

open Paging

/-- The page of `v` can be used in user mode in the space `s`: the entry of the directory and the
entry of the table are present and for user mode. -/
def UserAccessible (st : Paging) (s v : UInt32) : Prop :=
  let e := entry st.mem (pageDirectory packedLayout st s) (directoryIndex v)
  let t := entry st.mem (pageOf e) (tableIndex v)
  isPresent e = true ∧ isUser e = true ∧ isPresent t = true ∧ isUser t = true

/-- One of the calls maps the page of `v` for user mode, in some space. -/
def UserMapped (ops : List PagingOp) (v : UInt32) : Prop :=
  ∃ space virtualAddress physicalAddress flags,
    PagingOp.map space virtualAddress physicalAddress flags ∈ ops ∧ isUser flags = true ∧
    pageOf virtualAddress = pageOf v

section

variable {K : KernelStatics} {usable taken : Finset ℕ} {st : Paging} {role : ℕ → Role}
  {live : Finset UInt32} {ops : List PagingOp} {s v : UInt32}

/-- The two indices name the page. -/
theorem pageOf_eq_of_index {v v' : UInt32} (hi : directoryIndex v' = directoryIndex v)
    (hj : tableIndex v' = tableIndex v) : pageOf v' = pageOf v := by
  rw [directoryIndex_eq, directoryIndex_eq] at hi
  rw [tableIndex_eq, tableIndex_eq] at hj
  apply UInt32.toNat_inj.mp
  rw [pageOf_toNat, pageOf_toNat]
  omega

/-- The entries for user mode that a space reads have been issued. -/
theorem PagingInv.userMapped (h : PagingInv K usable st role taken live)
    (hm : Marks st.mem role (Issued ops)) (hs : s = K.kernelSpace ∨ s ∈ live)
    (hu : UserAccessible st s v) : UserMapped ops v := by
  obtain ⟨-, d, hd, -, -, htable⟩ := h.directory hs
  unfold UserAccessible at hu
  rw [hd] at hu
  obtain ⟨hp, -, -, hu⟩ := hu
  have hindex := htable _ (directoryIndex_lt v) hp
  have halign := pageOf_aligned (entry st.mem d (directoryIndex v))
  obtain ⟨space, v', pa, flags, hmem, hflags, hi, hj⟩ := hm _ _ hindex _ (tableIndex_lt v) (by
    rwa [show 4096 * ((pageOf (entry st.mem d (directoryIndex v))).toNat / 4096)
      = (pageOf (entry st.mem d (directoryIndex v))).toNat by omega])
  exact ⟨space, v', pa, flags, hmem, hflags, pageOf_eq_of_index hi hj⟩

end

/-- **Only what is mapped for user mode can be used in user mode.** In every run from
`paging_initialize` whose calls keep away from `owned_tables[1023]`: when no call has mapped a
virtual page for user mode in any space, the page cannot be used in user mode in any space. -/
theorem user_pages (K : KernelStatics) (p : Pmm) (hp : Managed K p) (m : Mem)
    (physical size : UInt32) {st : Paging} {live : Finset UInt32} {ops : List PagingOp}
    (hrun : PagingRun K (fun st op => op.Contained K st)
      (pagingInitialize packedLayout K m p physical size) st live ops) (v : UInt32)
    (hv : ¬ UserMapped ops v) : ∀ s, s = K.kernelSpace ∨ s ∈ live → ¬ UserAccessible st s v := by
  obtain ⟨hs, usable, taken, htracks⟩ := hp
  obtain ⟨role, taken', hinv, hm⟩ :=
    hrun.inv (fun _ _ => id) (pagingInitialize_inv htracks hs m physical size)
  exact fun s hs hu => hv (hinv.userMapped hm hs hu)

/-- Next to the page of the one space that is mapped for user mode there is a page that is not. -/
theorem user_pages_oneSpace : UserAccessible oneSpace 0x100000 0x00500000 ∧
    ¬ UserAccessible oneSpace 0x100000 0x00501000 := by
  have hrun := oneSpace_run (A := fun st op => op.Contained smallKernel st)
    (.inr (by decide +kernel)) (.inr (by decide +kernel))
  refine ⟨by unfold UserAccessible; decide +kernel, user_pages smallKernel eightPages
    managed_eightPages _ 0 0 hrun 0x00501000 ?_ 0x100000 (.inr (Finset.mem_singleton_self _))⟩
  rintro ⟨s, v, pa, flags, hmem, -, hv⟩
  obtain ⟨-, rfl, -⟩ : s = 0x100000 ∧ v = 0x00500000 ∧ pa = 0x107000 ∧ flags = 6 := by
    simpa using hmem
  cases hv

/-! ### The word behind the page of a structure -/

/-- The memory after a successful `paging_create_address_space`. -/
theorem create_mem {L : SpaceLayout} {K : KernelStatics} {st : Paging} {s d : UInt32}
    (hs : st.pmm.pmmAllocPage.1 = s) (hs0 : s ≠ 0) (hd : st.pmm.pmmAllocPage.2.pmmAllocPage.1 = d)
    (hd0 : d ≠ 0) : (pagingCreateAddressSpace L K st).2.mem = createdMem L K st.mem s d := by
  subst hs hd
  unfold pagingCreateAddressSpace
  dsimp only
  rw [if_neg hs0, if_neg hd0]
  rfl

/-- Outside of the structure and of the directory the memory is as before. -/
theorem load32_createdMem {K : KernelStatics} (m : Mem) {s d : UInt32} {a : ℕ}
    (hs : a + 4 ≤ s.toNat ∨ s.toNat + 4100 ≤ a) (hd : a + 4 ≤ d.toNat ∨ d.toNat + 4096 ≤ a) :
    (createdMem packedLayout K m s d).load32 a = m.load32 a := by
  have hat : packedLayout.ownedAt s 0 = s.toNat + 4 := rfl
  have hdir : packedLayout.directoryAt s = s.toNat := rfl
  unfold createdMem copyPageTable clearedMem pageEntries
  rw [Mem.load32_store32_of_disjoint _ _ (by omega),
    Mem.load32_storeWords_of_disjoint _ _ (by omega),
    Mem.load32_storeWords_of_disjoint _ _ (by omega)]

/-- The rounds of `paging_destroy_address_space` that find no table do nothing. -/
theorem foldl_freeOwnedTable {L : SpaceLayout} {st : Paging} {s : UInt32} :
    ∀ n, (∀ i < n, ownedTable L st s i = 0) → (List.range n).foldl (freeOwnedTable L s) st = st
  | 0, _ => rfl
  | n + 1, h => by
    rw [List.range_succ, List.foldl_append, foldl_freeOwnedTable n fun i hi => h i (by omega),
      List.foldl_cons, List.foldl_nil]
    exact if_neg (by simp [h n (by omega)])

/-- Two process spaces, at `0x100000` and `0x102000`. -/
def twoSpaces : Paging := PagingOp.exec smallKernel firstSpace .create

/-- The first of them has been destroyed. -/
def secondSpace : Paging :=
  let st := freeOwnedTable packedLayout 0x100000 twoSpaces 1023
  { st with pmm := (st.pmm.pmmFreePage 0x101000).pmmFreePage 0x100000 }

theorem ownedTable_twoSpaces (i : ℕ) (hi : i < 1023) :
    ownedTable packedLayout twoSpaces 0x100000 i = 0 := by
  have hmem : twoSpaces.mem =
    createdMem packedLayout smallKernel (createdMem packedLayout smallKernel
      bootedKernel.mem 0x100000 0x101000) 0x102000 0x103000 := by
    have hfirst : firstSpace.mem
        = createdMem packedLayout smallKernel bootedKernel.mem 0x100000 0x101000 :=
      create_mem (by decide +kernel) (by decide) (by decide +kernel) (by decide)
    rw [← hfirst]
    exact create_mem (by decide +kernel) (by decide) (by decide +kernel) (by decide)
  unfold ownedTable
  rw [hmem]
  change Mem.load32 _ (0x100000 + 4 + 4 * i) = 0
  -- the second space lies behind, and so does the directory of the first one
  rw [load32_createdMem _ (.inl ?_) (.inl ?_)]
  · unfold createdMem copyPageTable clearedMem pageEntries
    rw [Mem.load32_store32_of_disjoint _ _ (.inl ?_),
      Mem.load32_storeWords_of_disjoint _ _ (.inl ?_)]
    · exact Mem.load32_storeWords (a := packedLayout.ownedAt 0x100000 0) _ _ (by omega)
    · change 0x100000 + 4 + 4 * i + 4 ≤ 0x101000
      omega
    · change 0x100000 + 4 ≤ _
      omega
  · change 0x100000 + 4 + 4 * i + 4 ≤ 0x102000
    omega
  · change 0x100000 + 4 + 4 * i + 4 ≤ 0x103000
    omega

theorem exec_destroy_twoSpaces :
    PagingOp.exec smallKernel twoSpaces (.destroy 0x100000) = secondSpace := by
  refine destroy_eq (by decide) (by decide) ?_ (by decide +kernel) (by decide)
  rw [if_neg (by decide +kernel)]
  unfold pageEntries
  rw [List.range_succ, List.foldl_append, foldl_freeOwnedTable 1023 ownedTable_twoSpaces,
    List.foldl_cons, List.foldl_nil]

/-- The second space has a table at `0x100000`; a third space is created, whose structure is right
before that of the second; and a page of the last 4 MiB is mapped in it for user mode. -/
def spilledSpace : Paging :=
  PagingOp.exec smallKernel (PagingOp.exec smallKernel (PagingOp.exec smallKernel secondSpace
    (.map 0x102000 0x00500000 0 2)) .create) (.map 0x101000 0xFFC00000 0x105000 6)

/-- The third space has overwritten the directory of the second one with a table for user mode: page
0 can be used in user mode there, though no call has mapped it for user mode. -/
theorem user_pages_spilledSpace : ∃ live ops,
    PagingRun smallKernel (fun _ _ => True) bootedKernel spilledSpace live ops ∧
    ¬ UserMapped ops 0 ∧ 0x102000 ∈ live ∧ UserAccessible spilledSpace 0x102000 0 := by
  have h2 : PagingOp.live smallKernel firstSpace {0x100000} .create = {0x102000, 0x100000} := by
    decide +kernel
  have h3 : (Finset.erase {0x102000, 0x100000} 0x100000 : Finset UInt32) = {0x102000} := by decide
  have h5 : PagingOp.live smallKernel (PagingOp.exec smallKernel secondSpace
      (.map 0x102000 0x00500000 0 2)) {0x102000} .create = {0x101000, 0x102000} := by decide +kernel
  have hrun := firstSpace_run (A := fun _ _ => True) trivial
  have hrun := hrun.step .create (fun s h0 => absurd h0 (by simp [PagingOp.space])) trivial
  rw [h2] at hrun
  have hrun := hrun.step (.destroy 0x100000) (fun s h0 => .inr (by
    obtain rfl : 0x100000 = s := Option.some.inj h0
    decide)) trivial
  rw [show PagingOp.exec smallKernel (PagingOp.exec smallKernel firstSpace .create)
    (.destroy 0x100000) = secondSpace from exec_destroy_twoSpaces] at hrun
  dsimp only [PagingOp.live] at hrun
  rw [h3] at hrun
  have hrun := hrun.step (.map 0x102000 0x00500000 0 2) (fun s h0 => .inr (by
    obtain rfl : 0x102000 = s := Option.some.inj h0
    decide)) trivial
  have hrun := hrun.step .create (fun s h0 => absurd h0 (by simp [PagingOp.space])) trivial
  rw [show PagingOp.live _ _ _ (.map 0x102000 0x00500000 0 2) = {0x102000} from rfl, h5] at hrun
  have hrun := hrun.step (.map 0x101000 0xFFC00000 0x105000 6) (fun s h0 => .inr (by
    obtain rfl : 0x101000 = s := Option.some.inj h0
    decide)) trivial
  refine ⟨_, _, hrun, ?_, by decide, by unfold UserAccessible; decide +kernel⟩
  rintro ⟨s, v, pa, flags, hmem, hu, hv⟩
  have hcases : (s = 0x101000 ∧ v = 0xFFC00000 ∧ pa = 0x105000 ∧ flags = 6) ∨
      (s = 0x102000 ∧ v = 0x00500000 ∧ pa = 0 ∧ flags = 2) := by simpa using hmem
  obtain ⟨-, rfl, -⟩ | ⟨-, -, -, rfl⟩ := hcases
  · cases hv
  · cases hu

end MyOS
