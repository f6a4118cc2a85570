import MyOS.Paging.Space

/-!
# The life of an address space

Creation and destruction. A new space takes two pages, for its structure and its directory
(`Created`). The structure is 4100 bytes long: its last word lies behind its page, and
`AdjacentPages` says when that page is the directory's. `paging_destroy_address_space` walks over
the words of the structure and frees the tables one after the other (`Freeing`), so that what has
been taken for the space is free afterwards (`destroy_spec`).
-/

namespace MyOS

namespace Paging

variable {L : SpaceLayout} {K : KernelStatics} {st : Paging} {role : ℕ → Role}
  {usable taken : Finset ℕ} {m : Mem} {s d t e w : UInt32} {i j : ℕ}

/-! ### Creating a space -/

/-- The memory after the loop of `paging_create_address_space` has cleared `owned_tables`. -/
def clearedMem (L : SpaceLayout) (m : Mem) (s : UInt32) : Mem :=
  m.storeWords (L.ownedAt s 0) pageEntries fun _ => 0

/-- The memory after `paging_create_address_space` has built the space `s` with directory `d`. -/
def createdMem (L : SpaceLayout) (K : KernelStatics) (m : Mem) (s d : UInt32) : Mem :=
  (copyPageTable (clearedMem L m s) d K.kernelPageDirectory).store32 (L.directoryAt s) d

/-- **What `paging_create_address_space` does**: it returns null when no page is left for the
structure, or when none is left for the directory; then it has cleared the structure. -/
theorem create_cases (L : SpaceLayout) (K : KernelStatics) (st : Paging)
    (h : Sound st.pmm role usable taken) :
    (st.pmm.pmmAllocPage = (0, st.pmm) ∧ pagingCreateAddressSpace L K st = (0, st)) ∨
    ∃ s p1, st.pmm.pmmAllocPage = (s, p1) ∧ Fresh p1 role usable taken s ∧
      ((p1.pmmAllocPage = (0, p1) ∧ (p1.pmmFreePage s).Tracks usable taken ∧
        pagingCreateAddressSpace L K st
          = (0, { st with mem := clearedMem L st.mem s, pmm := p1.pmmFreePage s })) ∨
      ∃ d p2, p1.pmmAllocPage = (d, p2) ∧
        Fresh p2 (Function.update role (s.toNat / 4096) (.struct s)) usable
          (insert (s.toNat / 4096) taken) d ∧
        pagingCreateAddressSpace L K st
          = (s, { st with mem := createdMem L K st.mem s d, pmm := p2 })) := by
  unfold pagingCreateAddressSpace
  rcases h.pmmAllocPage_cases with hnull | ⟨s, p1, heq, hf⟩
  · rw [hnull]
    exact .inl ⟨rfl, if_pos rfl⟩
  refine .inr ⟨s, p1, heq, hf, ?_⟩
  rw [heq]
  dsimp only
  rw [if_neg hf.ne]
  rcases (h.take hf (.struct s)).pmmAllocPage_cases with hnull | ⟨d, p2, heq', hf'⟩
  · refine .inl ⟨hnull, ?_, ?_⟩
    · have := hf.tracks.pmmFreePage hf.aligned (Finset.mem_insert_self _ _)
      rwa [Finset.erase_insert hf.free] at this
    · rw [hnull]
      exact if_pos rfl
  · refine .inr ⟨d, p2, heq', hf', ?_⟩
    rw [heq']
    exact if_neg hf'.ne

/-- The roles of the pages after the space `s` with directory `d` has been built, where the first
`n` words of the structure are in pages of its own. -/
def createdRole (L : SpaceLayout) (n : ℕ) (role : ℕ → Role) (s d : UInt32) (k : ℕ) : Role :=
  if k = s.toNat / 4096 ∨ ∃ j < n, k = (L.base s + 4 * j) / 4096 then .struct s
  else if k = d.toNat / 4096 then .directory s
  else role k

/-- There is room for the structure `s` and for the directory `d`. -/
structure Room (L : SpaceLayout) (K : KernelStatics) (n : ℕ) (role : ℕ → Role) (s d : UInt32) :
    Prop where
  space_ne : s ≠ 0
  space_aligned : s.toNat % 4096 = 0
  space_other : role (s.toNat / 4096) = .other
  dir_ne : d ≠ 0
  dir_aligned : d.toNat % 4096 = 0
  dir_other : role (d.toNat / 4096) = .other
  dir_ne_space : d.toNat / 4096 ≠ s.toNat / 4096
  le : 1024 ≤ n
  cell_other : ∀ j < n, role ((L.base s + 4 * j) / 4096) = .other
  cell_ne : ∀ j < n, (L.base s + 4 * j) / 4096 ≠ d.toNat / 4096
  cell_page : ∀ j < n, (L.base s + 4 * j) / 4096 < 2 ^ 20 →
    (L.base s + 4 * j) / 4096 = s.toNat / 4096
  unowned : ∀ k, (role k).owner ≠ some s
  kernel : K.kernelEnd.toNat ≤ L.base s

section Created

variable {n : ℕ}

namespace Room

theorem createdRole_cell (j : ℕ) (hj : j < n) :
    createdRole L n role s d ((L.base s + 4 * j) / 4096) = .struct s :=
  if_pos (.inr ⟨j, hj, rfl⟩)

variable (hr : Room L K n role s d)
include hr

theorem base_aligned : L.base s % 4 = 0 := by
  have := hr.space_aligned
  exact L.aligned s (by omega)

theorem createdRole_of_lt {k : ℕ} (hk : k < 2 ^ 20) :
    createdRole L n role s d k = if k = s.toNat / 4096 then .struct s
      else if k = d.toNat / 4096 then .directory s else role k := by
  unfold createdRole
  by_cases hs : k = s.toNat / 4096
  · rw [if_pos (.inl hs), if_pos hs]
  · rw [if_neg, if_neg hs]
    rintro (h | ⟨j, hj, rfl⟩)
    · exact hs h
    · exact hs (hr.cell_page j hj hk)

theorem createdRole_dir : createdRole L n role s d (d.toNat / 4096) = .directory s := by
  unfold createdRole
  rw [if_neg, if_pos rfl]
  rintro (h | ⟨j, hj, h⟩)
  · exact hr.dir_ne_space h
  · exact hr.cell_ne j hj h.symm

/-- A page that gets a role had none. -/
theorem createdRole_cases (k : ℕ) : createdRole L n role s d k = role k ∨
    role k = .other ∧ (createdRole L n role s d k = .struct s ∨
      createdRole L n role s d k = .directory s ∧ k = d.toNat / 4096) := by
  unfold createdRole
  by_cases hs : k = s.toNat / 4096 ∨ ∃ j < n, k = (L.base s + 4 * j) / 4096
  · rw [if_pos hs]
    refine .inr ⟨?_, .inl rfl⟩
    rcases hs with rfl | ⟨j, hj, rfl⟩
    · exact hr.space_other
    · exact hr.cell_other j hj
  · rw [if_neg hs]
    by_cases hd : k = d.toNat / 4096
    · rw [if_pos hd]
      exact .inr ⟨hd ▸ hr.dir_other, .inr ⟨rfl, hd⟩⟩
    · exact .inl (if_neg hd)

/-- `owned_tables` is not in the kernel, so its directory is still what it was. -/
theorem entry_clearedMem {j : ℕ} (hj : j < 1024) :
    entry (clearedMem L m s) K.kernelPageDirectory j = entry m K.kernelPageDirectory j := by
  have hin := K.inside _ (List.mem_cons_self ..)
  have hk := hr.kernel
  refine Mem.load32_storeWords_of_disjoint _ _ (.inl ?_)
  unfold SpaceLayout.ownedAt
  omega

/-- The directory is a copy of the kernel's. -/
theorem entry_createdMem {j : ℕ} (hj : j < 1024) :
    entry (createdMem L K m s d) d j = entry m K.kernelPageDirectory j := by
  have hne := hr.cell_ne 0 (by have := hr.le; omega)
  have halign := hr.base_aligned
  rw [Nat.mul_zero, Nat.add_zero] at hne
  unfold createdMem copyPageTable
  rw [entry_of_page hr.dir_aligned hj fun k hk => Mem.store32_of_not_mem _ _ ?_]
  · exact (Mem.load32_storeWords _ _ hj).trans (hr.entry_clearedMem hj)
  · unfold SpaceLayout.directoryAt
    omega

/-- `owned_tables` is cleared. -/
theorem ownedAt_createdMem (hi : i < 1024) (hin : i + 1 < n) :
    (createdMem L K m s d).load32 (L.ownedAt s i) = 0 := by
  have hne := hr.cell_ne (i + 1) hin
  have halign := hr.base_aligned
  have hd := hr.dir_aligned
  have hcell : L.base s + 4 * (i + 1) = L.ownedAt s i := by
    unfold SpaceLayout.ownedAt
    omega
  rw [hcell] at hne
  have hself : L.ownedAt s i = L.ownedAt s 0 + 4 * i := by
    unfold SpaceLayout.ownedAt
    omega
  unfold createdMem copyPageTable clearedMem pageEntries
  rw [Mem.load32_store32_of_disjoint _ _ (by unfold SpaceLayout.directoryAt; omega),
    Mem.load32_storeWords_of_disjoint _ _ (by omega), hself, Mem.load32_storeWords _ _ hi]

/-- A new space owns its structure and its directory, and no table. -/
theorem owns : Owns L (createdMem L K m s d) (createdRole L n role s d) s d := by
  have hle := hr.le
  have h0 : ∀ i < 1023, (createdMem L K m s d).load32 (L.ownedAt s i) = 0 := fun i hi =>
    hr.ownedAt_createdMem (by omega) (by omega)
  have hun : ∀ k r, r.owner = some s → role k ≠ r := fun k r hs h => hr.unowned k (h ▸ hs)
  exact
    { space_aligned := hr.space_aligned
      space_ne := hr.space_ne
      cell_role := fun j hj => createdRole_cell j (by omega)
      struct_iff := fun k hk => by
        rw [hr.createdRole_of_lt hk]
        split_ifs with hs hd
        · exact iff_of_true rfl hs
        · exact iff_of_false (by simp) hs
        · exact iff_of_false (hun k _ rfl) hs
      dir_aligned := hr.dir_aligned
      dir_ne := hr.dir_ne
      dir_iff := fun k => by
        refine ⟨fun h => ?_, fun h => h ▸ hr.createdRole_dir⟩
        rcases hr.createdRole_cases k with heq | ⟨-, heq | ⟨-, hk⟩⟩
        · exact absurd (heq.symm.trans h) (hun k _ rfl)
        · exact nomatch heq.symm.trans h
        · exact hk
      dir_eq := Mem.load32_store32_self ..
      table_aligned := fun i hi => by
        rw [h0 i hi]
        rfl
      table_iff := fun k i => by
        refine ⟨fun h => ?_, fun ⟨hi, hne, _⟩ => absurd (h0 i hi) hne⟩
        rcases hr.createdRole_cases k with heq | ⟨-, heq | ⟨heq, -⟩⟩
        · exact absurd (heq.symm.trans h) (hun k _ rfl)
        · exact nomatch heq.symm.trans h
        · exact absurd (heq.symm.trans h) (by simp) }

theorem linked : Linked L (createdMem L K m s d) s d := by
  intro i hi hne
  have := hr.le
  exact absurd (hr.ownedAt_createdMem (by omega) (by omega)) hne

theorem spill (h : L.ownedAt s 1023 = d.toNat ∧ (entry m K.kernelPageDirectory 0 = 0 ∨
      (entry m K.kernelPageDirectory 0).toNat % 4096 ≠ 0) ∨ 1024 < n) :
    Spill L (createdMem L K m s d) (createdRole L n role s d) s d := by
  rcases h with ⟨heq, hval⟩ | hn
  · -- `owned_tables[1023]` is the first word of the directory
    have h0 := hr.entry_createdMem (m := m) (show 0 < 1024 by omega)
    unfold entry at h0
    rw [Nat.mul_zero, Nat.add_zero, ← heq] at h0
    exact ⟨.inl heq, by rw [h0]; exact hval⟩
  · refine ⟨.inr ?_, .inl (hr.ownedAt_createdMem (by omega) (by omega))⟩
    have hcell : L.base s + 4 * 1024 = L.ownedAt s 1023 := by
      unfold SpaceLayout.ownedAt
      omega
    rw [← hcell]
    exact createdRole_cell 1024 hn

/-- What is written lies in the pages of the space. -/
theorem createdMem_of_owner (h : L.ownedAt s 1023 = d.toNat ∨ 1024 < n) {a : ℕ}
    (ha : (createdRole L n role s d (a / 4096)).owner ≠ some s) :
    createdMem L K m s d a = m a := by
  have halign := hr.base_aligned
  have hle := hr.le
  have hd := hr.dir_aligned
  have hdir : a / 4096 ≠ d.toNat / 4096 := fun h0 => ha (by rw [h0, hr.createdRole_dir]; rfl)
  have hcell : ∀ j < n, a / 4096 ≠ (L.base s + 4 * j) / 4096 := fun j hj h0 =>
    ha (by rw [h0, createdRole_cell j hj]; rfl)
  unfold createdMem copyPageTable clearedMem pageEntries
  rw [Mem.store32_of_not_mem, Mem.storeWords_of_not_mem _ _ (by omega), Mem.storeWords_of_not_mem]
  · -- a word of `owned_tables` is in a page of the structure, or it is the last one
    by_contra hin
    unfold SpaceLayout.ownedAt at hin h
    by_cases hlast : a < L.base s + 4096
    · exact hcell ((a - L.base s) / 4) (by omega) (by omega)
    · rcases h with h | h
      · exact hdir (by omega)
      · exact hcell 1024 h (by omega)
  · have := hcell 0 (by omega)
    unfold SpaceLayout.directoryAt
    omega

theorem grown (h : L.ownedAt s 1023 = d.toNat ∨ 1024 < n)
    (hs : s.toNat / 4096 ∉ taken) (hd : d.toNat / 4096 ∉ taken) :
    Grown s m (createdMem L K m s d) role (createdRole L n role s d) taken
      (insert (d.toNat / 4096) (insert (s.toNat / 4096) taken)) := by
  refine ⟨fun k hk => ?_, fun k hk => ?_, fun k hlt hk => ?_, fun k hk => ?_,
    fun a ha => hr.createdMem_of_owner h ha⟩
  · rcases hr.createdRole_cases k with heq | ⟨h0, -⟩
    · exact heq
    · exact absurd h0 hk
  · rcases hr.createdRole_cases k with heq | ⟨-, heq | ⟨heq, -⟩⟩
    · exact absurd heq hk
    · rw [heq]
      rfl
    · rw [heq]
      rfl
  · rw [hr.createdRole_of_lt hlt] at hk
    split_ifs at hk with hks hkd
    · exact hks ▸ hs
    · exact hkd ▸ hd
    · exact absurd rfl hk
  · rw [Finset.mem_insert, Finset.mem_insert, hr.createdRole_of_lt hk]
    split_ifs with hks hkd
    · rw [hks, hr.space_other]
      simp
    · rw [hkd, hr.dir_other]
      simp
    · simp [hks, hkd]

theorem sound {p p' : Pmm} (h : Sound p role usable taken)
    (htracks : p'.Tracks usable (insert (d.toNat / 4096) (insert (s.toNat / 4096) taken))) :
    Sound p' (createdRole L n role s d) usable
      (insert (d.toNat / 4096) (insert (s.toNat / 4096) taken)) := by
  refine ⟨htracks, fun k hk hk' => ?_, fun k hk hk' => ?_⟩
  · have hlt := htracks.lt_limit hk
    rw [Finset.mem_insert, Finset.mem_insert, not_or, not_or] at hk'
    rw [hr.createdRole_of_lt (by omega), if_neg hk'.2.1, if_neg hk'.1]
    exact h.free_other k hk hk'.2.2
  · rw [Finset.mem_insert, Finset.mem_insert]
    rw [hr.createdRole_of_lt hk] at hk'
    split_ifs at hk' with hs hd
    · exact .inr (.inl hs)
    · exact .inl hd
    · exact .inr (.inr (h.owner_taken k hk hk'))

end Room

end Created

/-- The room that two new pages give the C structure: all of it but the last word. -/
theorem room_packed {p1 p2 : Pmm} (hf : Fresh p1 role usable taken s)
    (hf' : Fresh p2 (Function.update role (s.toNat / 4096) (.struct s)) usable
      (insert (s.toNat / 4096) taken) d)
    (hun : ∀ k, (role k).owner ≠ some s) (hkernel : ∀ k ∈ usable, K.kernelEnd.toNat ≤ k * 4096) :
    Room packedLayout K 1024 role s d := by
  have hne : d.toNat / 4096 ≠ s.toNat / 4096 := fun h0 => hf'.free (by rw [h0]; simp)
  have hpage : ∀ j < 1024, (packedLayout.base s + 4 * j) / 4096 = s.toNat / 4096 := fun j hj => by
    have := hf.aligned
    change (s.toNat + 4 * j) / 4096 = _
    omega
  have hother := hf'.other
  rw [Function.update_of_ne hne] at hother
  exact
    { space_ne := hf.ne
      space_aligned := hf.aligned
      space_other := hf.other
      dir_ne := hf'.ne
      dir_aligned := hf'.aligned
      dir_other := hother
      dir_ne_space := hne
      le := le_rfl
      cell_other := fun j hj => by
        rw [hpage j hj]
        exact hf.other
      cell_ne := fun j hj => by
        rw [hpage j hj]
        exact hne.symm
      cell_page := fun j hj _ => hpage j hj
      unowned := hun
      kernel := by
        have := hkernel _ hf.mem
        change _ ≤ s.toNat
        omega }

/-- No page is left for a structure, or the page behind the next one is the next but one: the
directory of a new space lies right behind its structure. -/
def AdjacentPages (p : Pmm) : Prop :=
  p.pmmAllocPage.1 = 0 ∨ p.pmmAllocPage.2.pmmAllocPage.1 = p.pmmAllocPage.1 + 4096

/-- A page behind a page that the allocator manages. -/
theorem toNat_add_page {p : Pmm} (hf : Fresh p role usable taken s) :
    (s + 4096).toNat = s.toNat + 4096 := by
  have hlt := hf.tracks.lt_limit hf.mem
  have hadd : (s + 4096).toNat = (s.toNat + 4096) % 2 ^ 32 := UInt32.toNat_add ..
  omega

/-- The new space `s` with directory `d`, in two adjacent pages. -/
structure Created (K : KernelStatics) (usable : Finset ℕ) (s d : UInt32) (st st' : Paging)
    (role : ℕ → Role) (taken : Finset ℕ) : Prop where
  room : Room packedLayout K 1024 role s d
  adjacent : packedLayout.ownedAt s 1023 = d.toNat
  space_eq : st.pmm.pmmAllocPage.1 = s
  dir_eq : st.pmm.pmmAllocPage.2.pmmAllocPage.1 = d
  space_free : s.toNat / 4096 ∉ taken
  dir_free : d.toNat / 4096 ∉ taken
  mem_eq : st'.mem = createdMem packedLayout K st.mem s d
  sound : Sound st'.pmm (createdRole packedLayout 1024 role s d) usable
    (insert (d.toNat / 4096) (insert (s.toNat / 4096) taken))
  current : st'.currentSpace = st.currentSpace

theorem Created.ne_kernelSpace {st' : Paging} (hc : Created K usable s d st st' role taken) :
    s ≠ K.kernelSpace := by
  rintro rfl
  have hin := K.inside (K.kernelSpace.toNat, 4100) (by simp)
  have hle : K.kernelEnd.toNat ≤ K.kernelSpace.toNat := hc.room.kernel
  omega

/-- `paging_create_address_space` where the next two pages are adjacent. -/
theorem create_adjacent (h : Sound st.pmm role usable taken)
    (hkernel : ∀ k ∈ usable, K.kernelEnd.toNat ≤ k * 4096)
    (hun : ∀ (s : UInt32) k, role (s.toNat / 4096) = .other → (role k).owner ≠ some s)
    (ha : AdjacentPages st.pmm) :
    pagingCreateAddressSpace packedLayout K st = (0, st) ∨
    ∃ s d st', pagingCreateAddressSpace packedLayout K st = (s, st') ∧
      Created K usable s d st st' role taken := by
  rcases create_cases packedLayout K st h with
    ⟨-, heq⟩ | ⟨s, p1, hp1, hf, ⟨hnull, -, -⟩ | ⟨d, p2, hp2, hf', heq⟩⟩
  · exact .inl heq
  · -- the page behind the structure is not page 0
    unfold AdjacentPages at ha
    rw [hp1, hnull] at ha
    have h0 := (congrArg UInt32.toNat (ha.resolve_left hf.ne)).trans (toNat_add_page hf)
    exact absurd h0 (by rw [UInt32.toNat_zero]; omega)
  · unfold AdjacentPages at ha
    rw [hp1, hp2] at ha
    have hd : d.toNat = s.toNat + 4096 :=
      (congrArg UInt32.toNat (ha.resolve_left hf.ne)).trans (toNat_add_page hf)
    have hr := room_packed hf hf' (fun k => hun s k hf.other) hkernel
    have hdfree : d.toNat / 4096 ∉ taken := fun hmem => hf'.free (Finset.mem_insert_of_mem hmem)
    refine .inr ⟨s, d, _, heq, hr, ?_, by rw [hp1], by rw [hp1, hp2], hf.free, hdfree, rfl,
      hr.sound h hf'.tracks, rfl⟩
    change s.toNat + 4 + 4 * 1023 = d.toNat
    omega

/-! ### Destroying a space -/

/-- The roles of the pages when the pages of the space `s` have been given back. -/
def releasedRole (role : ℕ → Role) (s : UInt32) (k : ℕ) : Role :=
  if (role k).owner = some s then .other else role k

/-- The taken pages without the first `n` tables of the space. -/
def remaining (role : ℕ → Role) (s : UInt32) (taken : Finset ℕ) (n : ℕ) : Finset ℕ :=
  taken.filter fun k => ∀ i < n, role k ≠ .table s i

theorem mem_remaining {n k : ℕ} :
    k ∈ remaining role s taken n ↔ k ∈ taken ∧ ∀ i < n, role k ≠ .table s i := Finset.mem_filter

/-- The loop of `paging_destroy_address_space`, before the round `n`: the tables below `n` have been
given back. -/
structure Freeing (L : SpaceLayout) (st0 : Paging) (role : ℕ → Role) (usable taken : Finset ℕ)
    (s d : UInt32) (n : ℕ) (st : Paging) : Prop where
  tracks : st.pmm.Tracks usable (remaining role s taken n)
  owned : ∀ i, n ≤ i → st.mem.load32 (L.ownedAt s i) = st0.mem.load32 (L.ownedAt s i)
  directory : st.mem.load32 (L.directoryAt s) = d
  frame : ∀ a, (role (a / 4096)).owner ≠ some s → st.mem a = st0.mem a
  current : st.currentSpace = st0.currentSpace

/-- One round gives back the table of slot `n`, if the space has one there. -/
theorem Freeing.round {st0 : Paging} {n : ℕ} (h : Sound st0.pmm role usable taken)
    (ho : Owns L st0.mem role s d) (hn : n < 1023)
    (hfr : Freeing L st0 role usable taken s d n st) :
    Freeing L st0 role usable taken s d (n + 1) (freeOwnedTable L s st n) := by
  have hiff := fun k => ho.table_iff k n
  have halign := ho.owned_aligned
  generalize ht : st0.mem.load32 (L.ownedAt s n) = t at hiff
  have htable : ownedTable L st s n = t := (hfr.owned n le_rfl).trans ht
  -- the pages that are still taken after the round
  have hfilter : ∀ k, (∀ i < n + 1, role k ≠ .table s i) ↔
      (∀ i < n, role k ≠ .table s i) ∧ ¬ (t ≠ 0 ∧ k = t.toNat / 4096) := fun k => by
    rw [Nat.forall_lt_succ_right]
    exact and_congr_right fun _ => not_congr (by rw [hiff]; simp [hn])
  unfold freeOwnedTable
  rw [htable]
  by_cases h0 : t = 0
  · rw [if_neg (by simp [h0])]
    have hsame : remaining role s taken (n + 1) = remaining role s taken n := by
      ext k
      rw [mem_remaining, mem_remaining, hfilter]
      exact and_congr_right fun _ => and_iff_left fun hfreed => hfreed.1 h0
    exact ⟨by rw [hsame]; exact hfr.tracks, fun i hi => hfr.owned i (by omega), hfr.directory,
      hfr.frame, hfr.current⟩
  · rw [if_pos h0]
    have hrole : role (t.toNat / 4096) = .table s n := (hiff _).mpr ⟨hn, h0, rfl⟩
    have hmem : t.toNat / 4096 ∈ remaining role s taken n := by
      have := t.toNat_lt
      refine mem_remaining.mpr ⟨h.owner_taken _ (by omega) (by rw [hrole]; simp [Role.owner]),
        fun i hi => ?_⟩
      rw [hrole]
      simp [show n ≠ i by omega]
    have herase : remaining role s taken (n + 1)
        = (remaining role s taken n).erase (t.toNat / 4096) := by
      ext k
      rw [Finset.mem_erase, mem_remaining, mem_remaining, hfilter]
      simp only [h0, ne_eq, not_false_eq_true, true_and]
      tauto
    refine ⟨?_, fun i hi => ?_, ?_, fun a ha => ?_, hfr.current⟩
    · rw [herase]
      exact hfr.tracks.pmmFreePage (ht ▸ ho.table_aligned n hn) hmem
    · rw [Mem.load32_store32_of_ne _ _ (halign n) (halign i)
        (by unfold SpaceLayout.ownedAt; omega)]
      exact hfr.owned i (by omega)
    · exact (Mem.load32_store32_of_ne _ _ (halign n) ho.base_aligned
        (by unfold SpaceLayout.ownedAt; omega)).trans hfr.directory
    · have hne : a / 4096 ≠ L.ownedAt s n / 4096 := fun h0 =>
        ha (by rw [h0, ho.owned_role hn]; rfl)
      have := halign n
      exact (Mem.store32_of_not_mem _ _ (by omega)).trans (hfr.frame a ha)

/-- The loop up to the last round. -/
theorem Freeing.run (h : Sound st.pmm role usable taken) (ho : Owns L st.mem role s d) :
    ∀ n ≤ 1023, Freeing L st role usable taken s d n
      ((List.range n).foldl (freeOwnedTable L s) st)
  | 0, _ =>
    ⟨by simpa [remaining] using h.tracks, fun _ _ => rfl, ho.dir_eq, fun _ _ => rfl, rfl⟩
  | n + 1, hn => by
    rw [List.range_succ, List.foldl_append]
    exact (Freeing.run h ho n (by omega)).round h ho (by omega)

/-- The last round frees nothing, and may clear a word of the space. -/
theorem Freeing.last {st0 : Paging} (ho : Owns L st0.mem role s d) (hs : Spill L st0.mem role s d)
    (hfr : Freeing L st0 role usable taken s d 1023 st) :
    Freeing L st0 role usable taken s d 1024 (freeOwnedTable L s st 1023) := by
  have halign := ho.owned_aligned
  have hsame : remaining role s taken 1024 = remaining role s taken 1023 := by
    ext k
    rw [mem_remaining, mem_remaining, Nat.forall_lt_succ_right]
    refine and_congr_right fun _ => and_iff_left fun h0 =>
      absurd ((ho.table_iff k 1023).mp h0).1 (by omega)
  have htracks := hfr.tracks
  rw [← hsame] at htracks
  have howned : ownedTable L st s 1023 = st0.mem.load32 (L.ownedAt s 1023) := hfr.owned 1023 le_rfl
  unfold freeOwnedTable
  by_cases h0 : ownedTable L st s 1023 = 0
  · rw [if_neg (by simp [h0])]
    exact ⟨htracks, fun i hi => hfr.owned i (by omega), hfr.directory, hfr.frame, hfr.current⟩
  · rw [if_pos h0]
    have hval := hs.value.resolve_left (howned ▸ h0)
    rw [← howned] at hval
    refine ⟨?_, fun i hi => ?_, ?_, fun a ha => ?_, hfr.current⟩
    · dsimp only
      rw [Pmm.pmmFreePage_of_unaligned _ hval]
      exact htracks
    · rw [Mem.load32_store32_of_ne _ _ (halign 1023) (halign i)
        (by unfold SpaceLayout.ownedAt; omega)]
      exact hfr.owned i (by omega)
    · exact (Mem.load32_store32_of_ne _ _ (halign 1023) ho.base_aligned
        (by unfold SpaceLayout.ownedAt; omega)).trans hfr.directory
    · have hne : a / 4096 ≠ L.ownedAt s 1023 / 4096 := fun h0 => by
        rcases hs.place with heq | hr
        · exact ha (by rw [h0, heq, ho.dir_role]; rfl)
        · exact ha (by rw [h0, hr]; rfl)
      have := halign 1023
      exact (Mem.store32_of_not_mem _ _ (by omega)).trans (hfr.frame a ha)

/-- The whole loop. -/
theorem Freeing.all (h : Sound st.pmm role usable taken) (ho : Owns L st.mem role s d)
    (hs : Spill L st.mem role s d) : Freeing L st role usable taken s d 1024
      ((List.range pageEntries).foldl (freeOwnedTable L s) st) := by
  unfold pageEntries
  rw [List.range_succ, List.foldl_append, List.foldl_cons, List.foldl_nil]
  exact (Freeing.run h ho 1023 le_rfl).last ho hs

/-- The pages of a space are its tables, its directory and its structure. -/
theorem remaining_erase (h : Sound st.pmm role usable taken) (ho : Owns L st.mem role s d) :
    ((remaining role s taken 1024).erase (d.toNat / 4096)).erase (s.toNat / 4096)
      = taken.filter fun k => (role k).owner ≠ some s := by
  ext k
  rw [Finset.mem_erase, Finset.mem_erase, mem_remaining, Finset.mem_filter]
  constructor
  · rintro ⟨hs, hd, hk, ht⟩
    refine ⟨hk, fun hown => ?_⟩
    rcases Role.owner_eq_some.mp hown with hrole | hrole | ⟨i, hrole⟩
    · exact hs ((ho.struct_iff k (h.lt hk)).mp hrole)
    · exact hd ((ho.dir_iff k).mp hrole)
    · exact ht i (by have := ((ho.table_iff k i).mp hrole).1; omega) hrole
  · rintro ⟨hk, hown⟩
    refine ⟨fun h0 => hown ?_, fun h0 => hown ?_, hk, fun i _ h0 => hown ?_⟩
    · rw [h0, ho.space_role]
      rfl
    · rw [h0, ho.dir_role]
      rfl
    · rw [h0]
      rfl

/-- The rest of `paging_destroy_address_space` gives the directory and the structure back. -/
theorem Freeing.finish {st0 st' : Paging} (h : Sound st0.pmm role usable taken)
    (ho : Owns L st0.mem role s d) (hfr : Freeing L st0 role usable taken s d 1024 st)
    (heq : st' = { st with pmm := (st.pmm.pmmFreePage d).pmmFreePage s }) :
    Sound st'.pmm (releasedRole role s) usable (taken.filter fun k => (role k).owner ≠ some s) ∧
    ∀ a, (role (a / 4096)).owner ≠ some s → st'.mem a = st0.mem a := by
  subst heq
  have hmem : ∀ {page : UInt32} {r : Role}, role (page.toNat / 4096) = r → r.owner = some s →
      (∀ i, r ≠ .table s i) → page.toNat / 4096 ∈ remaining role s taken 1024 := by
    intro page r hr hown hne
    have := page.toNat_lt
    refine mem_remaining.mpr ⟨h.owner_taken _ (by omega) ?_, fun i _ => hr ▸ hne i⟩
    rw [hr, hown]
    simp
  have hd := hmem ho.dir_role rfl (by simp)
  have hs := Finset.mem_erase.mpr ⟨page_ne_of_role ho.space_role ho.dir_role (by simp),
    hmem ho.space_role rfl (by simp)⟩
  have htracks := (hfr.tracks.pmmFreePage ho.dir_aligned hd).pmmFreePage ho.space_aligned hs
  rw [remaining_erase h ho] at htracks
  refine ⟨⟨htracks, fun k hk hk' => ?_, fun k hk hk' => ?_⟩, hfr.frame⟩
  · unfold releasedRole
    rw [Finset.mem_filter, not_and_not_right] at hk'
    split_ifs with hown
    · rfl
    · exact h.free_other k hk fun hmem => hown (hk' hmem)
  · unfold releasedRole at hk'
    split_ifs at hk' with hown
    · exact absurd rfl hk'
    · exact Finset.mem_filter.mpr ⟨h.owner_taken k hk hk', hown⟩

/-- `paging_destroy_address_space` is its loop, and two pages are given back after it. -/
theorem destroy_eq {st1 : Paging} (hs : s ≠ 0) (hks : s ≠ K.kernelSpace)
    (hst1 : (List.range pageEntries).foldl (freeOwnedTable L s) (if st.currentSpace = s then
      pagingSwitchAddressSpace L st K.kernelSpace else st) = st1)
    (hd : pageDirectory L st1 s = d) (hd0 : d ≠ 0) :
    pagingDestroyAddressSpace L K st s
      = { st1 with pmm := (st1.pmm.pmmFreePage d).pmmFreePage s } := by
  unfold pagingDestroyAddressSpace
  rw [if_neg (by simp [hs, hks])]
  dsimp only
  rw [hst1, hd, if_pos hd0]

/-- **What `paging_destroy_address_space` does**: the pages of the space are free afterwards, and
nothing else has changed. -/
theorem destroy_spec (h : Sound st.pmm role usable taken) (ho : Owns L st.mem role s d)
    (hs : Spill L st.mem role s d) (hks : s ≠ K.kernelSpace) :
    Sound (pagingDestroyAddressSpace L K st s).pmm (releasedRole role s) usable
      (taken.filter fun k => (role k).owner ≠ some s) ∧
    ∀ a, (role (a / 4096)).owner ≠ some s →
      (pagingDestroyAddressSpace L K st s).mem a = st.mem a := by
  obtain ⟨st0, hst0, hmem, hpmm⟩ : ∃ st0, st0 = (if st.currentSpace = s then
      pagingSwitchAddressSpace L st K.kernelSpace else st) ∧ st0.mem = st.mem ∧
      st0.pmm = st.pmm := by
    -- `paging_switch_address_space` changes neither the memory nor the allocator
    refine ⟨_, rfl, ?_, ?_⟩ <;> unfold pagingSwitchAddressSpace <;> split_ifs <;> rfl
  rw [← hmem] at ho hs ⊢
  rw [← hpmm] at h
  have hfr := Freeing.all h ho hs
  exact hfr.finish h ho
    (destroy_eq ho.space_ne hks (by rw [← hst0]) hfr.directory ho.dir_ne)

end Paging

end MyOS
