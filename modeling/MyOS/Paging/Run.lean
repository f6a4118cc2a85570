import MyOS.Paging.Kernel
import MyOS.Paging.Lifetime

/-!
# All address spaces

`PagingInv` is the invariant of the kernel's space and all process spaces together: no page has two
roles, every space is `Healthy`, and an entry for user mode has been asked for by a call. Each call
keeps it as long as it keeps away from `owned_tables[1023]` (`PagingOp.Contained`), hence every run
from `paging_initialize` does (`PagingRun.inv`).
-/

namespace MyOS

open Paging Function

/-! ### The invariant -/

/-- A process space with its directory: every table that the directory refers to is one of the
kernel's or the space's own, for its index. -/
structure Healthy (m : Mem) (role : ℕ → Role) (s d : UInt32) : Prop where
  owns : Owns packedLayout m role s d
  linked : Linked packedLayout m s d
  spill : Spill packedLayout m role s d
  table : ∀ i < 1024, isPresent (entry m d i) = true →
    role ((pageOf (entry m d i)).toNat / 4096) = .kernelTable i ∨
    role ((pageOf (entry m d i)).toNat / 4096) = .table s i

/-- The address spaces `live` and the kernel's. -/
structure PagingInv (K : KernelStatics) (usable : Finset ℕ) (st : Paging) (role : ℕ → Role)
    (taken : Finset ℕ) (live : Finset UInt32) : Prop where
  sound : Sound st.pmm role usable taken
  below : ∀ k ∈ usable, K.kernelEnd.toNat ≤ k * 4096
  kernel : KernelOk K st.mem role
  space : ∀ s ∈ live, ∃ d, Healthy st.mem role s d
  owner_live : ∀ k s, (role k).owner = some s → s ∈ live

/-- Between two states only pages of the space `s`, and pages that nobody used, have changed. -/
structure ApartFrom (s : UInt32) (m m' : Mem) (role role' : ℕ → Role) : Prop where
  keeps : ∀ k, role k ≠ .other → (role k).owner ≠ some s → role' k = role k
  gains : ∀ k, role' k ≠ role k → (role' k).owner = some s ∨ role' k = .other
  frame : ∀ a, role (a / 4096) ≠ .other → (role (a / 4096)).owner ≠ some s → m' a = m a

section Invariant

variable {K : KernelStatics} {usable taken taken' : Finset ℕ} {st : Paging} {m m' : Mem}
  {role role' : ℕ → Role} {live : Finset UInt32} {s s' d : UInt32} {issued : ℕ → ℕ → Prop}

theorem Grown.apart (h : Grown s m m' role role' taken taken') : ApartFrom s m m' role role' :=
  ⟨fun k hk _ => h.keeps k hk, fun k hk => .inl (h.gains k hk),
    fun a ha hown => h.frame a (by rwa [h.keeps _ ha])⟩

theorem KernelOk.congr (h : KernelOk K m role)
    (hm : ∀ a, role (a / 4096) = .kernelData ∨ role (a / 4096) = .kernelDirectory → m' a = m a)
    (hrole : ∀ k, role k ≠ .other → (role k).owner = none → role' k = role k) :
    KernelOk K m' role' := by
  refine ⟨h.toKernelTables.congr (fun a ha => hm a (.inr ha)) hrole, ?_, ?_⟩
  · rw [← h.dir_eq]
    refine load32_of_page K.space_aligned fun a ha => hm a (.inl ?_)
    rw [ha]
    exact h.cell_role 0 (by omega)
  · rw [entry_of_page K.directory_aligned (by omega) fun a ha => hm a (.inr (ha ▸ h.dir_role))]
    exact h.first

theorem KernelOk.apart (h : KernelOk K m role) (ha : ApartFrom s m m' role role') :
    KernelOk K m' role' := by
  refine h.congr (fun a hr => ?_) fun k hk hown => ha.keeps k hk (by rw [hown]; simp)
  rcases hr with hr | hr <;> exact ha.frame a (by rw [hr]; simp) (by rw [hr]; simp [Role.owner])

theorem packed_ownedAt (s : UInt32) (i : ℕ) :
    packedLayout.ownedAt s i = s.toNat + 4 * (i + 1) := by
  change s.toNat + 4 + 4 * i = _
  omega

/-- The kernel gets a table. -/
theorem KernelOk.installTable (h : KernelOk K m role) (hmarks : Marks m role issued) {t e : UInt32}
    {i : ℕ} {c : ℕ → UInt32} (ht : t.toNat % 4096 = 0) (hother : role (t.toNat / 4096) = .other)
    (hc : ∀ j < 1024, isUser (c j) = true → issued i j) (hi : i < 1024) (hpage : pageOf e = t)
    (hpresent : isPresent e = true) :
    KernelOk K (installTable packedLayout m K.kernelSpace K.kernelPageDirectory i t c e)
      (update role (t.toNat / 4096) (.kernelTable i)) ∧
    Marks (installTable packedLayout m K.kernelSpace K.kernelPageDirectory i t c e)
      (update role (t.toNat / 4096) (.kernelTable i)) issued := by
  have hspace := K.space_aligned
  have hat := packed_ownedAt K.kernelSpace i
  have hcell := h.cell_role (i + 1) (by omega)
  rw [← hat] at hcell
  have hcell0 : role (K.kernelSpace.toNat / 4096) = .kernelData := h.cell_role 0 (by omega)
  have hdne := page_ne_of_role h.dir_role hcell (by simp)
  have htne := page_ne_of_role hcell hother (by simp)
  have hdt := page_ne_of_role h.dir_role hother (by simp)
  have hct := page_ne_of_role hcell0 hother (by simp)
  have hdc := page_ne_of_role h.dir_role hcell0 (by simp)
  have hkd := K.directory_aligned
  obtain ⟨h1, hm1⟩ := h.toKernelTables.fill (c := c) hmarks ht hother
  -- the write to `owned_tables`
  have hframe : ∀ (m1 : Mem) a, role (a / 4096) ≠ .kernelData →
      m1.store32 (packedLayout.ownedAt K.kernelSpace i) t a = m1 a := by
    intro m1 a ha
    have := page_ne_of_role rfl hcell ha
    exact Mem.store32_of_not_mem _ _ (by omega)
  have h2 : KernelTables K _ role :=
    h1.congr (fun a ha => hframe _ a (by rw [ha]; simp)) fun _ _ _ => rfl
  have hm2 : Marks _ role issued :=
    hm1.congr (fun a ha => hframe _ a fun h0 => ha (by rw [h0]; rfl)) fun _ _ => id
  obtain ⟨h3, hm3⟩ := h2.install (i := i) (t := t) hm2 ht hother (fun j hj hu => by
    rw [entry_of_page ht hj fun a ha => Mem.store32_of_not_mem _ _ (by omega)] at hu
    exact hc j hj (by rwa [← show _ = c j from Mem.load32_storeWords _ _ hj])) hi hpage
  refine ⟨⟨h3, ?_, ?_⟩, hm3⟩
  · refine Eq.trans ?_ h.dir_eq
    change Mem.load32 _ K.kernelSpace.toNat = Mem.load32 _ K.kernelSpace.toNat
    unfold MyOS.installTable setEntry pageEntries
    rw [Mem.load32_store32_of_ne _ _ (entry_page hkd hi).2 hspace (by omega),
      Mem.load32_store32_of_ne _ _ (by omega) hspace (by omega),
      Mem.load32_storeWords_of_disjoint _ _ (by omega)]
  · unfold MyOS.installTable
    rw [entry_setEntry hkd]
    split_ifs with h0
    · exact hpresent
    · rw [entry_of_page hkd (by omega) fun a ha => Mem.store32_of_not_mem _ _ (by omega),
        entry_of_page hkd (by omega) fun a ha => Mem.storeWords_of_not_mem _ _
          (by unfold pageEntries; omega)]
      exact h.first

/-- The flags of an entry of the kernel's directory change. -/
theorem KernelOk.setEntry (h : KernelOk K m role) {e : UInt32} {i : ℕ} (hi : i < 1024)
    (hold : isPresent (entry m K.kernelPageDirectory i) = true) (hpresent : isPresent e = true)
    (hpage : pageOf e = pageOf (entry m K.kernelPageDirectory i)) :
    KernelOk K (setEntry m K.kernelPageDirectory i e) role := by
  have hcell : role (K.kernelSpace.toNat / 4096) = .kernelData := h.cell_role 0 (by omega)
  refine ⟨h.toKernelTables.setEntry fun _ => ?_, ?_, ?_⟩
  · rw [hpage]
    exact h.table i hi hold
  · refine Eq.trans ?_ h.dir_eq
    exact load32_of_page K.space_aligned fun a ha => h.dir_of_role hi (by
      rw [ha, show role (packedLayout.directoryAt K.kernelSpace / 4096) = _ from hcell]
      simp)
  · rw [entry_setEntry K.directory_aligned]
    split_ifs
    · exact hpresent
    · exact h.first

theorem Healthy.congr (h : Healthy m role s d)
    (hm : ∀ a, role (a / 4096) = .struct s ∨ role (a / 4096) = .directory s → m' a = m a)
    (hrole : ∀ k, (role k).owner = some s ∨ (role' k).owner = some s → role' k = role k)
    (hkernel : ∀ k i, role k = .kernelTable i → role' k = .kernelTable i) :
    Healthy m' role' s d := by
  refine ⟨h.owns.congr (fun a ha => hm a (.inl ha)) hrole, h.linked.congr h.owns hm,
    h.spill.congr h.owns hm fun k hk => hrole k (.inl hk), fun i hi hp => ?_⟩
  rw [entry_of_page h.owns.dir_aligned hi fun a ha => hm a (.inr (ha ▸ h.owns.dir_role))] at hp ⊢
  rcases h.table i hi hp with hr | hr
  · exact .inl (hkernel _ _ hr)
  · refine .inr ((hrole _ (.inl ?_)).trans hr)
    rw [hr]
    rfl

/-- Other spaces are not affected. -/
theorem Healthy.apart (h : Healthy m role s' d) (ha : ApartFrom s m m' role role') (hne : s' ≠ s) :
    Healthy m' role' s' d := by
  have hsome : ∀ {r : Role}, r.owner = some s' → r ≠ .other ∧ r.owner ≠ some s := by
    intro r hr
    refine ⟨fun h0 => ?_, fun h0 => hne (Option.some.inj (hr.symm.trans h0))⟩
    rw [h0] at hr
    exact absurd hr (by simp [Role.owner])
  refine h.congr (fun a hr => ?_) (fun k hk => ?_) fun k i hk => ?_
  · have hr' : (role (a / 4096)).owner = some s' := by rcases hr with hr | hr <;> rw [hr] <;> rfl
    exact ha.frame a (hsome hr').1 (hsome hr').2
  · rcases hk with hk | hk
    · exact ha.keeps k (hsome hk).1 (hsome hk).2
    · by_contra h0
      rcases ha.gains k h0 with h1 | h1
      · exact (hsome hk).2 h1
      · exact (hsome hk).1 h1
  · rw [ha.keeps k (by rw [hk]; simp) (by rw [hk]; simp [Role.owner]), hk]

/-- The entries for user mode, when no table of `s` is left. -/
theorem Marks.apart (h : Marks m role issued) (ha : ApartFrom s m m' role role')
    (hno : ∀ k, (role' k).owner = some s → (role' k).index = none) : Marks m' role' issued := by
  have hself : ∀ k, (role' k).index ≠ none → role' k = role k ∧ (role' k).owner ≠ some s := by
    intro k hk
    have hown : (role' k).owner ≠ some s := fun h0 => hk (hno k h0)
    refine ⟨?_, hown⟩
    by_contra h0
    rcases ha.gains k h0 with h1 | h1
    · exact hown h1
    · exact hk (by rw [h1]; rfl)
  refine h.congr (fun a hk => ?_) fun k i hk => ?_
  · obtain ⟨heq, hown⟩ := hself _ hk
    rw [heq] at hown hk
    exact ha.frame a (fun h0 => hk (by rw [h0]; rfl)) hown
  · rwa [← (hself k (by rw [hk]; simp)).1]

/-- The entries that a space reads are entries of tables. -/
theorem Marks.lookup (h : Marks m role issued) (hd : Healthy m role s d) {i j : ℕ} (hi : i < 1024)
    (hj : j < 1024) (hu : isUser (lookup m d i j) = true) : issued i j := by
  unfold MyOS.lookup at hu
  split_ifs at hu with hp
  · have hindex : (role ((pageOf (entry m d i)).toNat / 4096)).index = some i := by
      rcases hd.table i hi hp with hr | hr <;> rw [hr] <;> rfl
    refine h _ i hindex j hj ?_
    have := pageOf_aligned (entry m d i)
    rwa [show 4096 * ((pageOf (entry m d i)).toNat / 4096) = (pageOf (entry m d i)).toNat by omega]
  · cases hu

/-- The word that `paging_map_page_in_space` writes is for user mode if the flags say so. -/
theorem isUser_word (pa flags : UInt32) :
    isUser (pageOf pa ||| pagePresent ||| flags) = isUser flags := by
  rw [isUser_or, isUser_or, isUser_of_aligned (pageOf_aligned pa)]
  simp [show isUser pagePresent = false from rfl]

namespace PagingInv

variable (h : PagingInv K usable st role taken live)
include h

theorem ne_kernelSpace (hs : s ∈ live) : s ≠ K.kernelSpace := by
  rintro rfl
  obtain ⟨d, hd⟩ := h.space _ hs
  have h1 : role ((K.kernelSpace.toNat + 4 * 0) / 4096) = .struct K.kernelSpace :=
    hd.owns.cell_role 0 (by omega)
  rw [h.kernel.cell_role 0 (by omega)] at h1
  cases h1

/-- An operation on the space `s`, which may begin or end to live with it. -/
theorem apart {st' : Paging} {live' : Finset UInt32}
    (ha : ApartFrom s st.mem st'.mem role role') (hsound : Sound st'.pmm role' usable taken')
    (hlive : ∀ x, x ≠ s → (x ∈ live' ↔ x ∈ live))
    (hself : (∃ d, Healthy st'.mem role' s d) ∧ s ∈ live' ∨
      (∀ k, (role' k).owner ≠ some s) ∧ s ∉ live') :
    PagingInv K usable st' role' taken' live' := by
  refine ⟨hsound, h.below, h.kernel.apart ha, fun x hx => ?_, fun k x hk => ?_⟩
  · by_cases hxs : x = s
    · subst hxs
      exact (hself.resolve_right fun h0 => h0.2 hx).1
    · obtain ⟨d, hd⟩ := h.space x ((hlive x hxs).mp hx)
      exact ⟨d, hd.apart ha hxs⟩
  · by_cases hxs : x = s
    · subst hxs
      exact (hself.resolve_right fun h0 => h0.1 k hk).2
    · refine (hlive x hxs).mpr (h.owner_live k x ?_)
      by_contra h0
      rcases ha.gains k (fun h1 => h0 (h1 ▸ hk)) with h1 | h1
      · exact hxs (Option.some.inj (hk.symm.trans h1))
      · rw [h1] at hk
        exact absurd hk (by simp [Role.owner])

/-! ### Operations -/

/-- `paging_create_address_space` where the next two pages are adjacent. -/
theorem create (ha : AdjacentPages st.pmm) : pagingCreateAddressSpace packedLayout K st = (0, st) ∨
    ∃ s st' role' taken', pagingCreateAddressSpace packedLayout K st = (s, st') ∧ s ≠ 0 ∧
      s ∉ live ∧ PagingInv K usable st' role' taken' (insert s live) ∧
      ApartFrom s st.mem st'.mem role role' ∧
      (∀ issued, Marks st.mem role issued → Marks st'.mem role' issued) := by
  have hlive : ∀ s : UInt32, role (s.toNat / 4096) = .other → s ∉ live := by
    intro s hs hmem
    obtain ⟨d, hd⟩ := h.space s hmem
    rw [hd.owns.space_role] at hs
    cases hs
  have hun : ∀ (s : UInt32) k, role (s.toNat / 4096) = .other → (role k).owner ≠ some s :=
    fun s k hs hk => hlive s hs (h.owner_live k s hk)
  rcases create_adjacent h.sound h.below hun ha with heq | ⟨s, d, st', heq, hc⟩
  · exact .inl heq
  have hgrown := hc.room.grown (m := st.mem) (.inl hc.adjacent) hc.space_free hc.dir_free
  rw [← hc.mem_eq] at hgrown
  have hfirst : (entry st.mem K.kernelPageDirectory 0).toNat % 4096 ≠ 0 := by
    have := isPresent_iff.mp h.kernel.first
    omega
  have hhealthy : Healthy st'.mem (createdRole packedLayout 1024 role s d) s d := by
    rw [hc.mem_eq]
    refine ⟨hc.room.owns, hc.room.linked, hc.room.spill (.inl ⟨hc.adjacent, .inr hfirst⟩),
      fun i hi hp => ?_⟩
    rw [hc.room.entry_createdMem hi] at hp ⊢
    have hr := h.kernel.table i hi hp
    exact .inl ((hgrown.keeps _ (by rw [hr]; simp)).trans hr)
  refine .inr ⟨s, st', _, _, heq, hc.room.space_ne, hlive s hc.room.space_other,
    h.apart hgrown.apart hc.sound (fun x hx => by simp [hx])
      (.inl ⟨⟨d, hhealthy⟩, Finset.mem_insert_self ..⟩), hgrown.apart, fun issued hm =>
    hm.apart hgrown.apart fun k hk => ?_⟩
  rcases hc.room.createdRole_cases k with h0 | ⟨-, h0 | ⟨h0, -⟩⟩
  · rw [h0] at hk
    exact absurd hk (hc.room.unowned k)
  · rw [h0]
    rfl
  · rw [h0]
    rfl

/-- `paging_destroy_address_space`. -/
theorem destroy (hs : s ∈ live) :
    ∃ role' taken', PagingInv K usable (pagingDestroyAddressSpace packedLayout K st s) role' taken'
        (live.erase s) ∧
      ApartFrom s st.mem (pagingDestroyAddressSpace packedLayout K st s).mem role role' ∧
      (∀ issued, Marks st.mem role issued →
        Marks (pagingDestroyAddressSpace packedLayout K st s).mem role' issued) := by
  obtain ⟨d, hd⟩ := h.space s hs
  obtain ⟨hsound, hframe⟩ :=
    destroy_spec (K := K) h.sound hd.owns hd.spill (h.ne_kernelSpace hs)
  have hown : ∀ k, (releasedRole role s k).owner ≠ some s := fun k => by
    unfold releasedRole
    split_ifs with hk
    · simp [Role.owner]
    · exact hk
  have ha : ApartFrom s st.mem (pagingDestroyAddressSpace packedLayout K st s).mem role
      (releasedRole role s) := by
    refine ⟨fun k _ hk => if_neg hk, fun k hk => .inr ?_, fun a _ hk => hframe a hk⟩
    unfold releasedRole at hk ⊢
    split_ifs at hk ⊢
    · rfl
    · exact absurd rfl hk
  exact ⟨_, _, h.apart ha hsound (fun x hx => by simp [hx]) (.inr ⟨hown, by simp⟩), ha,
    fun issued hm => hm.apart ha fun k hk => absurd hk (hown k)⟩

/-- `paging_map_page_in_space` on a process space, outside of the last 4 MiB. -/
theorem map (hs : s ∈ live) (v pa flags : UInt32) (hi : directoryIndex v ≠ 1023) :
    (pagingMapPageInSpace packedLayout K st s v pa flags).2 = st ∨
    ∃ st' role' taken', (pagingMapPageInSpace packedLayout K st s v pa flags).2 = st' ∧
      PagingInv K usable st' role' taken' live ∧ ApartFrom s st.mem st'.mem role role' ∧
      (∀ issued : ℕ → ℕ → Prop, (isUser flags = true → issued (directoryIndex v) (tableIndex v)) →
        Marks st.mem role issued → Marks st'.mem role' issued) := by
  obtain ⟨d, hd⟩ := h.space s hs
  have hidx : directoryIndex v < 1023 := by
    have := directoryIndex_lt v
    omega
  rcases map_cases h.sound hd.owns hd.linked (h.ne_kernelSpace hs) v pa flags hidx with
    heq | ⟨t, e, st', role', taken', heq, hx, hmap, -⟩
  · exact .inl (by rw [heq])
  have ha := hx.grown.apart
  -- the directory has one new entry at most, and that refers to a table of the space
  have hhealthy : Healthy st'.mem role' s d := by
    refine ⟨hx.owns, hx.linked, hx.spill hd.spill, fun i hi hp => ?_⟩
    rw [hmap.dir_entry i hi] at hp ⊢
    split_ifs at hp ⊢ with hii
    · rw [hmap.page, hii]
      exact .inr hmap.role_table
    · rcases hd.table i hi hp with hr | hr
      · exact .inl ((hx.grown.keeps _ (by rw [hr]; simp)).trans hr)
      · exact .inr ((hx.grown.keeps _ (by rw [hr]; simp)).trans hr)
  refine .inr ⟨st', role', taken', by rw [heq], h.apart ha hx.sound (fun _ _ => Iff.rfl)
    (.inl ⟨⟨d, hhealthy⟩, hs⟩), ha, fun issued hissued hm => ?_⟩
  intro k i hk j hj hu
  by_cases hkt : k = t.toNat / 4096
  · -- the table in which the page has been mapped
    subst hkt
    have halign := hmap.aligned
    rw [hmap.role_table] at hk
    obtain rfl : directoryIndex v = i := Option.some.inj hk
    rw [show 4096 * (t.toNat / 4096) + 4 * j = t.toNat + 4 * j by omega] at hu
    have hent := hmap.table_entry j hj
    unfold entry at hent
    rw [hent] at hu
    split_ifs at hu with hj'
    · rw [isUser_word] at hu
      exact hj' ▸ hissued hu
    · exact hm.lookup hd (by omega) hj hu
  · -- any other table lies on a page that the call has not written
    rw [hmap.keeps k hkt] at hk
    refine hm k i hk j hj ?_
    have hrole := hmap.keeps k hkt
    rwa [load32_of_page (by omega) fun a ha => ?_] at hu
    have ha : a / 4096 = k := by omega
    have hne : ∀ r : Role, r.index = none ∨ r = .table s (directoryIndex v) →
      role' (a / 4096) ≠ r := by
      rintro r (hr | rfl) h0
      · rw [ha, hrole] at h0
        rw [h0, hr] at hk
        cases hk
      · rw [ha] at h0
        have h1 := (hx.owns.table_iff _ _).mp h0
        have h2 := (hx.owns.table_iff _ _).mp hmap.role_table
        exact hkt (h1.2.2.trans h2.2.2.symm)
    exact hmap.frame a (hne _ (.inl rfl)) (hne _ (.inl rfl)) (hne _ (.inr rfl))

/-- An entry of a table is written. -/
theorem writeEntry {t w : UInt32} {i j : ℕ}
    (ht : t.toNat % 4096 = 0) (hindex : (role (t.toNat / 4096)).index = some i) (hj : j < 1024) :
    PagingInv K usable { st with mem := setEntry st.mem t j w } role taken live := by
  have hframe : ∀ a, (role (a / 4096)).index = none → setEntry st.mem t j w a = st.mem a :=
    fun a ha => setEntry_of_page ht hj fun h0 => by
      rw [h0, hindex] at ha
      cases ha
  refine ⟨h.sound, h.below, h.kernel.congr (fun a ha => hframe a ?_) fun _ _ _ => rfl,
    fun s hs => ?_,
    h.owner_live⟩
  · rcases ha with ha | ha <;> rw [ha] <;> rfl
  · obtain ⟨d, hd⟩ := h.space s hs
    refine ⟨d, hd.congr (fun a ha => hframe a ?_) (fun _ _ => rfl) fun _ _ => id⟩
    rcases ha with ha | ha <;> rw [ha] <;> rfl

/-- A space that is in use has a directory, and this refers to tables. -/
theorem directory (hs : s = K.kernelSpace ∨ s ∈ live) :
    s ≠ 0 ∧ ∃ d, pageDirectory packedLayout st s = d ∧ d ≠ 0 ∧ d.toNat % 4096 = 0 ∧
      ∀ i < 1024, isPresent (entry st.mem d i) = true →
        (role ((pageOf (entry st.mem d i)).toNat / 4096)).index = some i := by
  rcases hs with rfl | hs
  · have hb := K.bounds
    refine ⟨fun h0 => ?_, _, h.kernel.dir_eq, fun h0 => ?_, K.directory_aligned, fun i hi hp => ?_⟩
    · rw [h0, UInt32.toNat_zero] at hb
      omega
    · rw [h0, UInt32.toNat_zero] at hb
      omega
    · rw [h.kernel.table i hi hp]
      rfl
  · obtain ⟨d, hd⟩ := h.space s hs
    refine ⟨hd.owns.space_ne, d, hd.owns.dir_eq, hd.owns.dir_ne, hd.owns.dir_aligned,
      fun i hi hp => ?_⟩
    rcases hd.table i hi hp with hr | hr <;> rw [hr] <;> rfl

/-- `paging_unmap_page_in_space`. -/
theorem unmap (hs : s = K.kernelSpace ∨ s ∈ live) (v : UInt32) :
    PagingInv K usable (pagingUnmapPageInSpace packedLayout st s v) role taken live ∧
    (∀ issued, Marks st.mem role issued →
      Marks (pagingUnmapPageInSpace packedLayout st s v).mem role issued) := by
  obtain ⟨hs0, d, hd, hd0, -, htable⟩ := h.directory hs
  unfold pagingUnmapPageInSpace
  rw [hd, if_neg (by simp [hs0, hd0])]
  dsimp only
  split_ifs with hp
  · exact ⟨h, fun _ => id⟩
  · have hindex := htable _ (directoryIndex_lt v) (by simpa using hp)
    exact ⟨h.writeEntry (pageOf_aligned _) hindex (tableIndex_lt v), fun issued hm =>
      hm.setEntry (pageOf_aligned _) hindex (tableIndex_lt v) nofun⟩

/-- A new page in the kernel's directory. -/
theorem newKernelTable {t e : UInt32} {p' : Pmm} {i : ℕ}
    {c : ℕ → UInt32} (hf : Fresh p' role usable taken t) (hi : i < 1024)
    (hk : KernelOk K (installTable packedLayout st.mem K.kernelSpace K.kernelPageDirectory i t c e)
      (update role (t.toNat / 4096) (.kernelTable i))) :
    PagingInv K usable { st with
        mem := installTable packedLayout st.mem K.kernelSpace K.kernelPageDirectory i t c e
        pmm := p' }
      (update role (t.toNat / 4096) (.kernelTable i)) (insert (t.toNat / 4096) taken)
      live := by
  have hcell := h.kernel.cell_role (i + 1) (by omega)
  have hat := packed_ownedAt K.kernelSpace i
  rw [← hat] at hcell
  have hspace := K.space_aligned
  have hrole : ∀ k, (update role (t.toNat / 4096) (.kernelTable i) k).owner ≠ none →
      update role (t.toNat / 4096) (.kernelTable i) k = role k := by
    intro k hk
    by_cases hkt : k = t.toNat / 4096
    · rw [hkt, update_self] at hk
      exact absurd rfl hk
    · exact update_of_ne hkt ..
  refine ⟨h.sound.take hf _, h.below, hk, fun s hs => ?_, fun k s hk => ?_⟩
  · obtain ⟨d, hd⟩ := h.space s hs
    refine ⟨d, hd.congr (fun a ha => ?_) (fun k hk => ?_) fun k i' hk => ?_⟩
    · have hne : ∀ {k' r}, role k' = r → r ≠ .struct s → r ≠ .directory s → a / 4096 ≠ k' := by
        rintro k' r hk' h1 h2 rfl
        rcases ha with ha | ha
        · exact h1 (hk'.symm.trans ha)
        · exact h2 (hk'.symm.trans ha)
      exact installTable_of_page K.directory_aligned hf.aligned (by omega) hi
        (hne h.kernel.dir_role (by simp) (by simp)) (hne hf.other (by simp) (by simp))
        (hne hcell (by simp) (by simp))
    · rcases hk with hk | hk
      · refine update_of_ne (page_ne_of_role rfl hf.other fun h0 => ?_) ..
        rw [h0] at hk
        exact absurd hk (by simp [Role.owner])
      · exact hrole k (by rw [hk]; simp)
    · rw [update_of_ne (page_ne_of_role hk hf.other (by simp)), hk]
  · exact h.owner_live k s (by rw [← hrole k (by rw [hk]; simp)]; exact hk)

/-- An entry of the kernel's directory is written. -/
theorem setKernelEntry {e : UInt32} {i : ℕ}
    (hi : i < 1024) (hk : KernelOk K (setEntry st.mem K.kernelPageDirectory i e) role) :
    PagingInv K usable { st with mem := setEntry st.mem K.kernelPageDirectory i e } role taken
      live := by
  refine ⟨h.sound, h.below, hk, fun s hs => ?_, h.owner_live⟩
  obtain ⟨d, hd⟩ := h.space s hs
  refine ⟨d, hd.congr (fun a ha => h.kernel.dir_of_role hi ?_) (fun _ _ => rfl) fun _ _ => id⟩
  rcases ha with ha | ha <;> rw [ha] <;> simp

/-- `paging_map_page_in_space` on the kernel's space. -/
theorem mapKernel (v pa flags : UInt32) :
    ∃ st' role' taken', (pagingMapPageInSpace packedLayout K st K.kernelSpace v pa flags).2 = st' ∧
      PagingInv K usable st' role' taken' live ∧
      (∀ issued : ℕ → ℕ → Prop, (isUser flags = true → issued (directoryIndex v) (tableIndex v)) →
        Marks st.mem role issued → Marks st'.mem role' issued) := by
  obtain ⟨hs0, -⟩ := h.directory (.inl rfl)
  have hi := directoryIndex_lt v
  have hj := tableIndex_lt v
  rcases pagingMapPageInSpace_cases h.sound hs0 h.kernel.dir_eq K.directory_ne v pa flags with
    heq | ⟨t, p', c, e, hf, hc, he, heq⟩ | ⟨⟨hp, -⟩, e', he', hcase⟩
  · exact ⟨st, role, taken, by rw [heq], h, fun _ _ => id⟩
  · -- a new table, which is empty
    obtain ⟨-, rfl⟩ | ⟨-, hne, -⟩ := hc
    · have hself : update role (t.toNat / 4096) (Role.kernelTable (directoryIndex v))
          (t.toNat / 4096) = .kernelTable (directoryIndex v) := update_self ..
      have hmarks : ∀ issued, Marks st.mem role issued → _ := fun issued hm =>
        (h.kernel.installTable (i := directoryIndex v) (c := fun _ => 0) (e := e)
          hm hf.aligned hf.other (nofun) hi he.page
          he.present)
      have hinv := h.newKernelTable (e := e) hf hi (hmarks _ fun _ _ _ _ _ _ => trivial).1
      refine ⟨_, _, _, by rw [heq], hinv.writeEntry hf.aligned (by rw [hself]; rfl) hj,
        fun issued hissued hm => ?_⟩
      exact (hmarks issued hm).2.setEntry hf.aligned (by rw [hself]; rfl) hj fun hu =>
        hissued (by rwa [isUser_word] at hu)
    · exact absurd rfl hne
  · -- the table is kept
    have hindex : (role ((pageOf (entry st.mem K.kernelPageDirectory (directoryIndex v))).toNat
        / 4096)).index = some (directoryIndex v) := by
      rw [h.kernel.table _ hi hp]
      rfl
    have hinv := h.setKernelEntry hi (h.kernel.setEntry hi hp he'.present he'.page)
    have hmarks : ∀ issued, Marks st.mem role issued →
        Marks (setEntry st.mem K.kernelPageDirectory (directoryIndex v) e') role issued :=
      fun issued hm => hm.congr (fun a ha => h.kernel.dir_of_role hi fun h0 => ha (by rw [h0]; rfl))
        fun _ _ => id
    -- a table at the address 0 counts as a failure, after the directory has been written
    rcases hcase with ⟨-, heq⟩ | ⟨-, heq⟩
    · exact ⟨_, _, _, by rw [heq], hinv, fun issued _ hm => hmarks issued hm⟩
    · refine ⟨_, _, _, by rw [heq], hinv.writeEntry (pageOf_aligned _) hindex hj,
        fun issued hissued hm => ?_⟩
      exact (hmarks issued hm).setEntry (pageOf_aligned _) hindex hj fun hu =>
        hissued (by rwa [isUser_word] at hu)

end PagingInv

end Invariant

/-! ### Runs -/

/-- A call of one of the four operations. -/
inductive PagingOp
  | create
  | map (space virtualAddress physicalAddress flags : UInt32)
  | unmap (space virtualAddress : UInt32)
  | destroy (space : UInt32)

namespace PagingOp

/-- The space that is an argument of the call. -/
def space : PagingOp → Option UInt32
  | .create => none
  | .map space _ _ _ => some space
  | .unmap space _ => some space
  | .destroy space => some space

/-- The state after the call. -/
def exec (K : KernelStatics) (st : Paging) : PagingOp → Paging
  | .create => (pagingCreateAddressSpace packedLayout K st).2
  | .map space virtualAddress physicalAddress flags =>
    (pagingMapPageInSpace packedLayout K st space virtualAddress physicalAddress flags).2
  | .unmap space virtualAddress => pagingUnmapPageInSpace packedLayout st space virtualAddress
  | .destroy space => pagingDestroyAddressSpace packedLayout K st space

/-- The process spaces that live after the call. -/
def live (K : KernelStatics) (st : Paging) (spaces : Finset UInt32) : PagingOp → Finset UInt32
  | .create =>
    let space := (pagingCreateAddressSpace packedLayout K st).1
    if space = 0 then spaces else insert space spaces
  | .destroy space => spaces.erase space
  | _ => spaces

/-- The call keeps away from `owned_tables[1023]`: a new space gets two adjacent pages, and no page
of the last 4 MiB is mapped in a process space. -/
def Contained (K : KernelStatics) (st : Paging) : PagingOp → Prop
  | .create => AdjacentPages st.pmm
  | .map space virtualAddress _ _ => space = K.kernelSpace ∨ directoryIndex virtualAddress ≠ 1023
  | _ => True

end PagingOp

/-- A run of calls from `start`, each on the kernel's space or on a live one, and each as `allow`
says. It keeps the live spaces, and the calls, the last one first. -/
inductive PagingRun (K : KernelStatics) (allow : Paging → PagingOp → Prop) (start : Paging) :
    Paging → Finset UInt32 → List PagingOp → Prop
  | init : PagingRun K allow start start ∅ []
  | step {st : Paging} {live : Finset UInt32} {ops : List PagingOp}
      (h : PagingRun K allow start st live ops) (op : PagingOp)
      (hspace : ∀ s, op.space = some s → s = K.kernelSpace ∨ s ∈ live) (hallow : allow st op) :
      PagingRun K allow start (op.exec K st) (op.live K st live) (op :: ops)

/-- Some of the calls has mapped the page `j` of the table `i` for user mode. -/
def Issued (ops : List PagingOp) (i j : ℕ) : Prop :=
  ∃ space virtualAddress physicalAddress flags,
    PagingOp.map space virtualAddress physicalAddress flags ∈ ops ∧ isUser flags = true ∧
    directoryIndex virtualAddress = i ∧ tableIndex virtualAddress = j

section Runs

variable {K : KernelStatics} {usable taken : Finset ℕ} {st start : Paging} {role : ℕ → Role}
  {live : Finset UInt32} {ops : List PagingOp}

theorem Issued.cons (op : PagingOp) {i j : ℕ} (h : Issued ops i j) : Issued (op :: ops) i j := by
  obtain ⟨space, v, pa, flags, hmem, h⟩ := h
  exact ⟨space, v, pa, flags, List.mem_cons_of_mem _ hmem, h⟩

/-- **One call** keeps the invariant. -/
theorem PagingInv.exec (h : PagingInv K usable st role taken live)
    (hm : Marks st.mem role (Issued ops))
    (op : PagingOp) (hspace : ∀ s, op.space = some s → s = K.kernelSpace ∨ s ∈ live)
    (hcont : op.Contained K st) :
    ∃ role' taken', PagingInv K usable (op.exec K st) role' taken' (op.live K st live) ∧
      Marks (op.exec K st).mem role' (Issued (op :: ops)) := by
  have hm' : Marks st.mem role (Issued (op :: ops)) := hm.mono fun _ _ => .cons op
  cases op with
  | create =>
    dsimp only [PagingOp.exec, PagingOp.live]
    rcases h.create hcont with heq | ⟨s, st', role', taken', heq, hne, -, hinv, -, hmarks⟩
    · rw [heq]
      exact ⟨role, taken, h, hm'⟩
    · rw [heq]
      rw [if_neg hne]
      exact ⟨role', taken', hinv, hmarks _ hm'⟩
  | map s v pa flags =>
    dsimp only [PagingOp.exec, PagingOp.live]
    have hissued : isUser flags = true → Issued (.map s v pa flags :: ops) (directoryIndex v)
        (tableIndex v) := fun hu => ⟨s, v, pa, flags, List.mem_cons_self .., hu, rfl, rfl⟩
    by_cases hs : s = K.kernelSpace
    · subst hs
      obtain ⟨st', role', taken', heq, hinv, hmarks⟩ := h.mapKernel v pa flags
      rw [heq]
      exact ⟨role', taken', hinv, hmarks _ hissued hm'⟩
    · have hlive := (hspace s rfl).resolve_left hs
      rcases h.map hlive v pa flags (hcont.resolve_left hs) with
        heq | ⟨st', role', taken', heq, hinv, -, hmarks⟩
      · rw [heq]
        exact ⟨role, taken, h, hm'⟩
      · rw [heq]
        exact ⟨role', taken', hinv, hmarks _ hissued hm'⟩
  | unmap s v =>
    obtain ⟨hinv, hmarks⟩ := h.unmap (hspace s rfl) v
    exact ⟨role, taken, hinv, hmarks _ hm'⟩
  | destroy s =>
    dsimp only [PagingOp.exec, PagingOp.live]
    rcases hspace s rfl with rfl | hs
    · -- the kernel's space is not destroyed
      rw [show pagingDestroyAddressSpace packedLayout K st K.kernelSpace = st from
        if_pos (.inr rfl), Finset.erase_eq_of_notMem fun hs => h.ne_kernelSpace hs rfl]
      exact ⟨role, taken, h, hm'⟩
    · obtain ⟨role', taken', hinv, -, hmarks⟩ := h.destroy hs
      exact ⟨role', taken', hinv, hmarks _ hm'⟩

/-- **A run** keeps the invariant. -/
theorem PagingRun.inv {allow : Paging → PagingOp → Prop}
    (hallow : ∀ st op, allow st op → op.Contained K st)
    (hstart : ∃ role taken, PagingInv K usable start role taken ∅ ∧
      Marks start.mem role fun _ _ => False)
    (h : PagingRun K allow start st live ops) :
    ∃ role taken, PagingInv K usable st role taken live ∧ Marks st.mem role (Issued ops) := by
  induction h with
  | init =>
    obtain ⟨role, taken, hinv, hm⟩ := hstart
    exact ⟨role, taken, hinv, hm.mono fun _ _ h0 => h0.elim⟩
  | step _ op hspace ha ih =>
    obtain ⟨role, taken, hinv, hm⟩ := ih
    exact hinv.exec hm op hspace (hallow _ op ha)

/-- The invariant after `paging_initialize`. -/
theorem pagingInitialize_inv {p : Pmm} (htracks : p.Tracks usable taken)
    (hs : p.managedStart = K.kernelEnd) (m : Mem) (physical size : UInt32) :
    ∃ role taken,
      PagingInv K usable (pagingInitialize packedLayout K m p physical size) role taken ∅ ∧
      Marks (pagingInitialize packedLayout K m p physical size).mem role fun _ _ => False := by
  obtain ⟨role, hk, hm, hbelow⟩ := pagingInitialize_ok K m p physical size
  have hle : ∀ k ∈ usable, K.kernelEnd.toNat ≤ k * 4096 := fun k hk => hs ▸ (htracks.range k hk).1
  have hnone : ∀ k, (role k).owner = none := fun k => by
    by_cases h0 : role k = .other
    · rw [h0]
      rfl
    · exact (hbelow k h0).2
  refine ⟨role, taken, ⟨⟨htracks, fun k hk _ => ?_, fun k _ hk => absurd (hnone k) hk⟩, hle, hk,
    fun s hs => absurd hs (Finset.notMem_empty s), fun k s hk => ?_⟩, hm⟩
  · by_contra h0
    have := hle k hk
    have := (hbelow k h0).1
    omega
  · rw [hnone] at hk
    cases hk

end Runs

end MyOS
