import MyOS.Paging.Framebuffer
import MyOS.Paging.Isolation

/-!
# Mapping a page changes one translation

`paging_map_page_in_space` may find no table, a table that is shared with the kernel, or one of the
space's own; each time the function that the directory and the tables stand for changes at one page
(`lookup_update`). `ExactMap` says so in terms of `paging_get_physical_in_space`, and `map_exact`
proves it in every run that keeps away from `owned_tables[1023]`. That word is the first one of the
page behind the structure. Where the directory lies there, mapping a page of the last 4 MiB replaces
its first entry (`map_exact_lastSlot`).
-/

namespace MyOS

open Paging

/-! ### One entry -/

section Lookup

variable {m m' : Mem} {d t e w : UInt32} {i j : ℕ}

/-- The directory refers with `e` to the table `t` for the index `i`, and this reads as before but
for its entry `j`. -/
theorem lookup_update (hdir : ∀ i' < 1024, entry m' d i' = if i' = i then e else entry m d i')
    (hpresent : isPresent e = true) (hpage : pageOf e = t)
    (htable : ∀ j' < 1024, entry m' t j' = if j' = j then w else lookup m d i j')
    (hframe : ∀ i' < 1024, i' ≠ i → isPresent (entry m d i') = true → ∀ j' < 1024,
      entry m' (pageOf (entry m d i')) j' = entry m (pageOf (entry m d i')) j')
    {i' j' : ℕ} (hi' : i' < 1024) (hj' : j' < 1024) :
    lookup m' d i' j' = if i' = i ∧ j' = j then w else lookup m d i' j' := by
  by_cases hii : i' = i
  · subst hii
    have hread : lookup m' d i' j' = entry m' t j' := by
      unfold lookup
      rw [hdir i' hi', if_pos rfl, if_pos hpresent, hpage]
    rw [hread, htable j' hj']
    simp only [true_and]
  · rw [if_neg fun h0 => hii h0.1]
    unfold lookup
    rw [hdir i' hi', if_neg hii]
    by_cases hp : isPresent (entry m d i') = true
    · rw [if_pos hp, if_pos hp, hframe i' hi' hii hp j' hj']
    · rw [if_neg hp, if_neg hp]

/-- The flags of an entry of the directory do not matter. -/
theorem lookup_flags (hd : d.toNat % 4096 = 0) (hi : i < 1024)
    (hold : isPresent (entry m d i) = true) (hpresent : isPresent e = true)
    (hpage : pageOf e = pageOf (entry m d i))
    (hapart : ∀ i' < 1024, isPresent (entry m d i') = true →
      (pageOf (entry m d i')).toNat / 4096 ≠ d.toNat / 4096)
    {i' j' : ℕ} (hi' : i' < 1024) (hj' : j' < 1024) :
    lookup (setEntry m d i e) d i' j' = lookup m d i' j' := by
  have hread : ∀ i'' < 1024, isPresent (entry m d i'') = true →
      entry (setEntry m d i e) (pageOf (entry m d i'')) j' = entry m (pageOf (entry m d i'')) j' :=
    fun i'' hi'' hp => entry_of_page (pageOf_aligned _) hj' fun a ha =>
      setEntry_of_page hd hi fun h0 => hapart i'' hi'' hp (ha.symm.trans h0)
  unfold lookup
  rw [entry_setEntry hd]
  by_cases hii : i' = i
  · subst hii
    rw [if_pos rfl, if_pos hpresent, if_pos hold, hpage, hread i' hi hold]
  · rw [if_neg hii]
    by_cases hp : isPresent (entry m d i') = true
    · rw [if_pos hp, if_pos hp, hread i' hi' hp]
    · rw [if_neg hp, if_neg hp]

end Lookup

/-! ### Process spaces -/

section Process

variable {m m' : Mem} {role role' : ℕ → Role} {taken taken' : Finset ℕ} {s d t e w : UInt32}
  {i j : ℕ}

/-- What a process space reads after a page has been mapped in it. -/
theorem Paging.Mapped.lookup_eq (h : Mapped s d i j t e w m m' role role')
    (hhealthy : Healthy m role s d) (hgrown : Grown s m m' role role' taken taken')
    {i' j' : ℕ} (hi' : i' < 1024) (hj' : j' < 1024) :
    lookup m' d i' j' = if i' = i ∧ j' = j then w else lookup m d i' j' := by
  refine lookup_update h.dir_entry h.present h.page h.table_entry
    (fun i'' hi'' hne hp j'' hj'' => ?_) hi' hj'
  -- the table of another index is the kernel's or the space's own, and not the one that is written
  refine entry_of_page (pageOf_aligned _) hj'' fun a ha => ?_
  rcases hhealthy.table i'' hi'' hp with hr | hr
  · have hr' := (hgrown.keeps _ (by rw [hr]; simp)).trans hr
    rw [← ha] at hr'
    exact h.frame a (by rw [hr']; simp) (by rw [hr']; simp) (by rw [hr']; simp)
  · have hr' := (hgrown.keeps _ (by rw [hr]; simp)).trans hr
    rw [← ha] at hr'
    exact h.frame a (by rw [hr']; simp) (by rw [hr']; simp) (by rw [hr']; simpa using hne)

end Process

/-! ### The kernel's space -/

section Kernel

variable {K : KernelStatics} {m : Mem} {role : ℕ → Role} {t e w : UInt32} {i j : ℕ}

/-- What the kernel reads after it got a table with one entry. -/
theorem KernelOk.lookup_new (h : KernelOk K m role) (ht : t.toNat % 4096 = 0)
    (hother : role (t.toNat / 4096) = .other) (hi : i < 1024) (hj : j < 1024)
    (hold : isPresent (entry m K.kernelPageDirectory i) = false) (hpresent : isPresent e = true)
    (hpage : pageOf e = t) {i' j' : ℕ} (hi' : i' < 1024) (hj' : j' < 1024) :
    lookup (MyOS.setEntry (MyOS.installTable packedLayout m K.kernelSpace K.kernelPageDirectory i t
        (fun _ => 0) e) t j w) K.kernelPageDirectory i' j' =
      if i' = i ∧ j' = j then w else lookup m K.kernelPageDirectory i' j' := by
  have hat := packed_ownedAt K.kernelSpace i
  have hspace := K.space_aligned
  have hkd := K.directory_aligned
  have hcell := h.cell_role (i + 1) (by omega)
  rw [← hat] at hcell
  have hdt := page_ne_of_role h.dir_role hother (by simp)
  have hdc := page_ne_of_role h.dir_role hcell (by simp)
  have htc := page_ne_of_role hother hcell (by simp)
  refine lookup_update (e := e) (t := t) (fun i'' hi'' => ?_) hpresent hpage (fun j'' hj'' => ?_)
    (fun i'' hi'' hne hp j'' hj'' => ?_) hi' hj'
  · -- the directory changes in slot `i` only
    rw [entry_of_page hkd hi'' fun a ha => setEntry_of_page ht hj (ha ▸ hdt)]
    unfold MyOS.installTable
    rw [entry_setEntry hkd]
    by_cases hii : i'' = i
    · rw [if_pos hii, if_pos hii]
    · rw [if_neg hii, if_neg hii, entry_of_page hkd hi'' fun a ha =>
        Mem.store32_of_not_mem _ _ (by omega), entry_of_page hkd hi'' fun a ha =>
          Mem.storeWords_of_not_mem _ _ (by unfold pageEntries; omega)]
  · -- the new table is empty but for entry `j`
    rw [entry_setEntry ht]
    unfold MyOS.installTable
    rw [entry_of_page ht hj'' fun a ha => setEntry_of_page hkd hi (ha ▸ hdt.symm),
      entry_of_page ht hj'' fun a ha => Mem.store32_of_not_mem _ _ (by omega),
      show entry (m.storeWords t.toNat pageEntries fun _ => 0) t j'' = 0 from
        Mem.load32_storeWords _ _ hj'']
    unfold lookup
    rw [hold]
    rfl
  · -- the other tables are on other pages
    have hr := h.table i'' hi'' hp
    have htable := page_ne_of_role hr hother (by simp)
    have hdir := page_ne_of_role hr h.dir_role (by simp)
    have hdata := page_ne_of_role hr hcell (by simp)
    refine entry_of_page (pageOf_aligned _) hj'' fun a ha => ?_
    rw [setEntry_of_page ht hj (ha ▸ htable)]
    exact installTable_of_page hkd ht (by omega) hi (ha ▸ hdir) (ha ▸ htable) (ha ▸ hdata)

/-- What the kernel reads after an entry of a table that it has is written. -/
theorem KernelOk.lookup_kept (h : KernelOk K m role) (hi : i < 1024) (hj : j < 1024)
    (hold : isPresent (entry m K.kernelPageDirectory i) = true) (hpresent : isPresent e = true)
    (hpage : pageOf e = pageOf (entry m K.kernelPageDirectory i)) {i' j' : ℕ} (hi' : i' < 1024)
    (hj' : j' < 1024) :
    lookup (MyOS.setEntry (MyOS.setEntry m K.kernelPageDirectory i e)
        (pageOf (entry m K.kernelPageDirectory i)) j w) K.kernelPageDirectory i' j' =
      if i' = i ∧ j' = j then w else lookup m K.kernelPageDirectory i' j' := by
  have hkd := K.directory_aligned
  have hr := h.table i hi hold
  have hne : ∀ i'' < 1024, isPresent (entry m K.kernelPageDirectory i'') = true →
      (pageOf (entry m K.kernelPageDirectory i'')).toNat / 4096
        ≠ K.kernelPageDirectory.toNat / 4096 :=
    fun i'' hi'' hp => page_ne_of_role (h.table i'' hi'' hp) h.dir_role (by simp)
  have halign := pageOf_aligned (entry m K.kernelPageDirectory i)
  refine lookup_update (e := e) (fun i'' hi'' => ?_) hpresent hpage (fun j'' hj'' => ?_)
    (fun i'' hi'' hii hp j'' hj'' => ?_) hi' hj'
  · rw [entry_of_page hkd hi'' fun a ha => setEntry_of_page halign hj (ha ▸ (hne i hi hold).symm),
      entry_setEntry hkd]
  · rw [entry_setEntry halign, entry_of_page halign hj'' fun a ha =>
      setEntry_of_page hkd hi (ha ▸ hne i hi hold)]
    unfold lookup
    rw [if_pos hold]
  · have htable := page_ne_of_role (h.table i'' hi'' hp) hr (by simpa using hii)
    refine entry_of_page (pageOf_aligned _) hj'' fun a ha => ?_
    rw [setEntry_of_page halign hj (ha ▸ htable), setEntry_of_page hkd hi (ha ▸ hne i'' hi'' hp)]

end Kernel

/-! ### Exactness -/

/-- The call `paging_map_page_in_space(space, v, pa, flags)` in the state `st` with the process
spaces `live` maps the page of `v` to the page of `pa` and changes no other translation of the
space, or returns `false` and changes no translation at all. -/
structure ExactMap (K : KernelStatics) (st : Paging) (live : Finset UInt32)
    (space v pa flags : UInt32) : Prop where
  mapped : (pagingMapPageInSpace packedLayout K st space v pa flags).1 = true → ∀ u : UInt32,
    (u.toNat / 4096 = v.toNat / 4096 → (pagingGetPhysicalInSpace packedLayout
        (pagingMapPageInSpace packedLayout K st space v pa flags).2 space u).toNat
          = pa.toNat / 4096 * 4096 + u.toNat % 4096) ∧
    (u.toNat / 4096 ≠ v.toNat / 4096 → pagingGetPhysicalInSpace packedLayout
        (pagingMapPageInSpace packedLayout K st space v pa flags).2 space u
          = pagingGetPhysicalInSpace packedLayout st space u)
  failed : (pagingMapPageInSpace packedLayout K st space v pa flags).1 = false →
    ∀ s, s = K.kernelSpace ∨ s ∈ live → ∀ u : UInt32, pagingGetPhysicalInSpace packedLayout
        (pagingMapPageInSpace packedLayout K st space v pa flags).2 s u
          = pagingGetPhysicalInSpace packedLayout st s u

section Exact

variable {K : KernelStatics} {usable taken : Finset ℕ} {st st' : Paging} {role : ℕ → Role}
  {live : Finset UInt32} {s d : UInt32}

/-- Two addresses have the same indices when they lie in one page. -/
theorem indices_eq_iff (u v : UInt32) :
    directoryIndex u = directoryIndex v ∧ tableIndex u = tableIndex v ↔
      u.toNat / 4096 = v.toNat / 4096 := by
  rw [directoryIndex_eq, directoryIndex_eq, tableIndex_eq, tableIndex_eq]
  omega

/-- A call that fails changes no translation if the memory reads as before. -/
theorem ExactMap.of_false {v pa flags : UInt32}
    (heq : pagingMapPageInSpace packedLayout K st s v pa flags = (false, st'))
    (hsame : ∀ s, s = K.kernelSpace ∨ s ∈ live → ∀ u : UInt32,
      pagingGetPhysicalInSpace packedLayout st' s u =
        pagingGetPhysicalInSpace packedLayout st s u) :
    ExactMap K st live s v pa flags := by
  constructor <;> rw [heq]
  · exact nofun
  · exact fun _ => hsame

/-- A call that succeeds changes the entries of the space at one page. -/
theorem ExactMap.of_lookup {v pa flags : UInt32} (hflags : flags.toNat < 4096) (hs : s ≠ 0)
    (hd0 : d ≠ 0) (heq : pagingMapPageInSpace packedLayout K st s v pa flags = (true, st'))
    (hd : pageDirectory packedLayout st s = d) (hd' : pageDirectory packedLayout st' s = d)
    (hlookup : ∀ i < 1024, ∀ j < 1024, lookup st'.mem d i j =
      if i = directoryIndex v ∧ j = tableIndex v then pageOf pa ||| pagePresent ||| flags
      else lookup st.mem d i j) : ExactMap K st live s v pa flags := by
  constructor <;> rw [heq]
  · intro _ u
    have hu := hlookup _ (directoryIndex_lt u) _ (tableIndex_lt u)
    rw [pagingGetPhysicalInSpace_eq hs (hd'.symm ▸ hd0), pagingGetPhysicalInSpace_eq hs
      (hd.symm ▸ hd0)]
    unfold isMapped
    rw [hd, hd', hu]
    refine ⟨fun hpage => ?_, fun hpage => ?_⟩
    · have hpresent : isPresent (pageOf pa ||| pagePresent ||| flags) = true := by
        rw [isPresent_or, isPresent_or]
        simp [show isPresent pagePresent = true from rfl]
      rw [if_pos ((indices_eq_iff u v).mpr hpage), if_pos hpresent, pageOf_or _ hflags,
        pageOf_or _ (by decide), pageOf_of_aligned (pageOf_aligned pa),
        page_or_offset (pageOf_aligned pa), pageOf_toNat]
    · rw [if_neg fun h0 => hpage ((indices_eq_iff u v).mp h0)]
  · exact nofun

/-- The translation of a space whose entries have not changed. -/
theorem getPhysical_of_lookup (hs : s ≠ 0) (hd0 : d ≠ 0) (hd : pageDirectory packedLayout st s = d)
    (hd' : pageDirectory packedLayout st' s = d)
    (hlookup : ∀ i < 1024, ∀ j < 1024, lookup st'.mem d i j = lookup st.mem d i j) (u : UInt32) :
    pagingGetPhysicalInSpace packedLayout st' s u
      = pagingGetPhysicalInSpace packedLayout st s u := by
  have hu := hlookup _ (directoryIndex_lt u) _ (tableIndex_lt u)
  rw [pagingGetPhysicalInSpace_eq hs (hd'.symm ▸ hd0), pagingGetPhysicalInSpace_eq hs
    (hd.symm ▸ hd0)]
  unfold isMapped
  rw [hd, hd', hu]

section

variable (h : PagingInv K usable st role taken live)
include h

theorem PagingInv.exactMap_process (hs : s ∈ live)
    {v pa flags : UInt32} (hi : directoryIndex v ≠ 1023) (hflags : flags.toNat < 4096) :
    ExactMap K st live s v pa flags := by
  obtain ⟨d, hd⟩ := h.space s hs
  have hidx : directoryIndex v < 1023 := by
    have := directoryIndex_lt v
    omega
  rcases map_cases h.sound hd.owns hd.linked (h.ne_kernelSpace hs) v pa flags hidx with
    heq | ⟨t, e, st', role', taken', heq, hx, hmap, -⟩
  · exact .of_false heq fun _ _ _ => rfl
  · exact .of_lookup hflags hd.owns.space_ne hd.owns.dir_ne heq hd.owns.dir_eq hx.owns.dir_eq
      fun i hi j hj => hmap.lookup_eq hd hx.grown hi hj

/-- A write to the kernel's directory that keeps its tables is seen by no space. -/
theorem PagingInv.getPhysical_flags {e : UInt32} {i : ℕ}
    (hi : i < 1024) (hold : isPresent (entry st.mem K.kernelPageDirectory i) = true)
    (hpresent : isPresent e = true)
    (hpage : pageOf e = pageOf (entry st.mem K.kernelPageDirectory i))
    (hs : s = K.kernelSpace ∨ s ∈ live) (u : UInt32) :
    pagingGetPhysicalInSpace packedLayout
        { st with mem := setEntry st.mem K.kernelPageDirectory i e } s u
      = pagingGetPhysicalInSpace packedLayout st s u := by
  have hkd := K.directory_aligned
  have h' := h.setKernelEntry hi (h.kernel.setEntry hi hold hpresent hpage)
  have hrole : ∀ k, role k ≠ .kernelDirectory → k ≠ K.kernelPageDirectory.toNat / 4096 :=
    fun k hk h0 => hk (h0 ▸ h.kernel.dir_role)
  obtain ⟨hs0, -⟩ := h.directory hs
  rcases hs with rfl | hs
  · refine getPhysical_of_lookup hs0 K.directory_ne h.kernel.dir_eq h'.kernel.dir_eq
      (fun i' hi' j' hj' => ?_) u
    exact lookup_flags hkd hi hold hpresent hpage (fun i'' hi'' hp =>
      hrole _ (by rw [h.kernel.table i'' hi'' hp]; simp)) hi' hj'
  · obtain ⟨d, hd⟩ := h.space s hs
    -- the directory of the space lies on another page
    have hframe : ∀ a, role (a / 4096) ≠ .kernelDirectory →
        setEntry st.mem K.kernelPageDirectory i e a = st.mem a :=
      fun a ha => setEntry_of_page hkd hi (hrole _ ha)
    have hcell : pageDirectory packedLayout
        { st with mem := setEntry st.mem K.kernelPageDirectory i e } s = d := by
      refine Eq.trans ?_ hd.owns.dir_eq
      refine load32_of_page hd.owns.base_aligned fun a ha => hframe a ?_
      rw [ha, hd.owns.directoryAt_role]
      simp
    refine getPhysical_of_lookup hs0 hd.owns.dir_ne hd.owns.dir_eq hcell (fun i' hi' j' hj' => ?_) u
    have hentry : entry (setEntry st.mem K.kernelPageDirectory i e) d i' = entry st.mem d i' :=
      entry_of_page hd.owns.dir_aligned hi' fun a ha => hframe a (by
        rw [ha, hd.owns.dir_role]
        simp)
    unfold lookup
    rw [hentry]
    by_cases hp : isPresent (entry st.mem d i') = true
    · rw [if_pos hp, if_pos hp]
      refine entry_of_page (pageOf_aligned _) hj' fun a ha => hframe a ?_
      rw [ha]
      rcases hd.table i' hi' hp with hr | hr
      · rw [hr]
        simp
      · rw [hr]
        simp
    · rw [if_neg hp, if_neg hp]

theorem PagingInv.exactMap_kernel {v pa flags : UInt32} (hflags : flags.toNat < 4096) :
    ExactMap K st live K.kernelSpace v pa flags := by
  obtain ⟨hs0, -⟩ := h.directory (.inl rfl)
  have hd0 := K.directory_ne
  obtain ⟨st1, role1, taken1, heq1, hinv1, -⟩ := h.mapKernel v pa flags
  have hdir1 : pageDirectory packedLayout
      (pagingMapPageInSpace packedLayout K st K.kernelSpace v pa flags).2 K.kernelSpace
        = K.kernelPageDirectory := heq1 ▸ hinv1.kernel.dir_eq
  have hi := directoryIndex_lt v
  have hj := tableIndex_lt v
  rcases pagingMapPageInSpace_cases h.sound hs0 h.kernel.dir_eq hd0 v pa flags with
    heq | ⟨t, p', c, e, hf, hc, he, heq⟩ | ⟨⟨hp, -⟩, e', he', hcase⟩
  · exact .of_false heq fun _ _ _ => rfl
  · -- there was no table
    obtain ⟨hold, rfl⟩ | ⟨-, hne, -⟩ := hc
    · rw [heq] at hdir1
      exact .of_lookup hflags hs0 hd0 heq h.kernel.dir_eq hdir1 fun i' hi' j' hj' =>
        h.kernel.lookup_new hf.aligned hf.other hi hj hold he.present he.page hi' hj'
    · exact absurd rfl hne
  · -- the table is kept
    rcases hcase with ⟨-, heq⟩ | ⟨-, heq⟩
    · exact .of_false heq fun s hs u => h.getPhysical_flags hi hp he'.present he'.page hs u
    · rw [heq] at hdir1
      exact .of_lookup hflags hs0 hd0 heq h.kernel.dir_eq hdir1 fun i' hi' j' hj' =>
        h.kernel.lookup_kept hi hj hp he'.present he'.page hi' hj'

end

end Exact

/-- **Mapping is exact.** In every state of every run from `paging_initialize` whose calls keep away
from `owned_tables[1023]`, a call that does too maps its page in the kernel's space or in a process
space and changes no other translation of the space, or fails and changes none. -/
theorem map_exact (K : KernelStatics) (p : Pmm) (hp : Managed K p) (m : Mem)
    (physical size : UInt32) {st : Paging} {live : Finset UInt32} {ops : List PagingOp}
    (hrun : PagingRun K (fun st op => op.Contained K st)
      (pagingInitialize packedLayout K m p physical size) st live ops)
    {s v pa flags : UInt32} (hs : s = K.kernelSpace ∨ s ∈ live)
    (hcontained : (PagingOp.map s v pa flags).Contained K st) (hflags : flags.toNat < 4096) :
    ExactMap K st live s v pa flags := by
  obtain ⟨hstart, usable, taken, htracks⟩ := hp
  obtain ⟨role, taken', hinv, -⟩ :=
    hrun.inv (fun _ _ => id) (pagingInitialize_inv htracks hstart m physical size)
  by_cases hk : s = K.kernelSpace
  · subst hk
    exact hinv.exactMap_kernel hflags
  · exact hinv.exactMap_process (hs.resolve_left hk) (hcontained.resolve_left hk) hflags

/-- A page that the new space shares with the kernel is mapped elsewhere. -/
theorem map_exact_oneSpace :
    ExactMap smallKernel oneSpace {0x100000} 0x100000 0x00501000 0x106000 6 := by
  have hrun := oneSpace_run (A := fun st op => op.Contained smallKernel st)
    (.inr (by decide +kernel)) (.inr (by decide +kernel))
  exact map_exact smallKernel eightPages managed_eightPages _ 0 0 hrun
    (.inr (Finset.mem_singleton_self _)) (.inr (by decide +kernel)) (by decide)

/-- A new space has its directory right behind its structure. Mapping a page of the last 4 MiB
stores the address of the new table in `owned_tables[1023]`, which is the first entry of the
directory: the first 4 MiB are not translated any more. -/
theorem map_exact_lastSlot : ∃ st live ops,
    PagingRun smallKernel (fun _ _ => True) bootedKernel st live ops ∧ 0x100000 ∈ live ∧
    (pagingMapPageInSpace packedLayout smallKernel st 0x100000 0xFFC00000 0x107000 6).1 = true ∧
    pagingGetPhysicalInSpace packedLayout st 0x100000 0x1000 = 0x1000 ∧
    pagingGetPhysicalInSpace packedLayout
      (pagingMapPageInSpace packedLayout smallKernel st 0x100000 0xFFC00000 0x107000 6).2
        0x100000 0x1000 = 0 ∧
    ¬ ExactMap smallKernel st live 0x100000 0xFFC00000 0x107000 6 := by
  have htrue : (pagingMapPageInSpace packedLayout smallKernel firstSpace 0x100000 0xFFC00000
      0x107000 6).1 = true := by
    decide +kernel
  have hbefore : pagingGetPhysicalInSpace packedLayout firstSpace 0x100000 0x1000 = 0x1000 := by
    decide +kernel
  have hafter : pagingGetPhysicalInSpace packedLayout (pagingMapPageInSpace packedLayout smallKernel
      firstSpace 0x100000 0xFFC00000 0x107000 6).2 0x100000 0x1000 = 0 := by
    decide +kernel
  refine ⟨_, _, _, firstSpace_run trivial, Finset.mem_singleton_self _, htrue, hbefore, hafter,
    fun h => ?_⟩
  have := (h.mapped htrue 0x1000).2 (by decide)
  rw [hbefore, hafter] at this
  cases this

end MyOS
