import MyOS.Paging.Owned

/-!
# One address space

`ensure_table` and `paging_map_page_in_space` on one space. `Sound` ties the roles of the pages to
the page allocator: what it can hand out has no role. `map_cases` is what the rest of the
development uses: the call fails without a change, or the space has grown by at most one table
(`Grown`) and exactly one entry is new (`Mapped`).
-/

namespace MyOS

open Function

/-! ### Pages in use -/

/-- The roles of the pages agree with the page allocator: a page that it can hand out has no role,
and it has handed out the pages of the address spaces. -/
structure Sound (p : Pmm) (role : ℕ → Role) (usable taken : Finset ℕ) : Prop where
  tracks : p.Tracks usable taken
  free_other : ∀ k ∈ usable, k ∉ taken → role k = .other
  owner_taken : ∀ k < 2 ^ 20, (role k).owner ≠ none → k ∈ taken

/-- The page that `pmm_alloc_page` has returned, with the allocator `p` after it. -/
structure Fresh (p : Pmm) (role : ℕ → Role) (usable taken : Finset ℕ) (page : UInt32) : Prop where
  ne : page ≠ 0
  aligned : page.toNat % 4096 = 0
  mem : page.toNat / 4096 ∈ usable
  free : page.toNat / 4096 ∉ taken
  other : role (page.toNat / 4096) = .other
  tracks : p.Tracks usable (insert (page.toNat / 4096) taken)

section Pages

variable {p p' : Pmm} {role : ℕ → Role} {usable taken : Finset ℕ} {page : UInt32}

theorem Sound.pmmAllocPage_cases (h : Sound p role usable taken) :
    p.pmmAllocPage = (0, p) ∨
    ∃ page p', p.pmmAllocPage = (page, p') ∧ Fresh p' role usable taken page := by
  rcases h.tracks.pmmAllocPage_cases with
    hnull | ⟨page, p', heq, hne, halign, husable, hfree, htracks, -⟩
  · exact .inl hnull
  · exact .inr ⟨page, p', heq, hne, halign, husable, hfree, h.free_other _ husable hfree, htracks⟩

/-- The page is put to use. -/
theorem Sound.take (h : Sound p role usable taken) (hf : Fresh p' role usable taken page)
    (r : Role) :
    Sound p' (update role (page.toNat / 4096) r) usable
      (insert (page.toNat / 4096) taken) := by
  refine ⟨hf.tracks, fun k hk hk' => ?_, fun k hk hk' => ?_⟩
  · rw [Finset.mem_insert, not_or] at hk'
    rw [update_of_ne hk'.1]
    exact h.free_other k hk hk'.2
  · rw [Finset.mem_insert]
    by_cases heq : k = page.toNat / 4096
    · exact .inl heq
    · rw [update_of_ne heq] at hk'
      exact .inr (h.owner_taken k hk hk')

theorem Sound.lt (h : Sound p role usable taken) {k : ℕ} (hk : k ∈ taken) : k < 2 ^ 20 := by
  have := h.tracks.lt_limit (h.tracks.subset hk)
  omega

end Pages

/-- The space `s` has gained pages, and nothing else has changed: the memory `m`, the roles and the
taken pages before, and those after. -/
structure Grown (s : UInt32) (m m' : Mem) (role role' : ℕ → Role) (taken taken' : Finset ℕ) :
    Prop where
  keeps : ∀ k, role k ≠ .other → role' k = role k
  gains : ∀ k, role' k ≠ role k → (role' k).owner = some s
  fresh : ∀ k < 2 ^ 20, role' k ≠ role k → k ∉ taken
  taken_iff : ∀ k < 2 ^ 20, k ∈ taken' ↔ k ∈ taken ∨ role' k ≠ role k
  frame : ∀ a, (role' (a / 4096)).owner ≠ some s → m' a = m a

namespace Grown

variable {s : UInt32} {m m' m'' : Mem} {role role' role'' : ℕ → Role}
  {taken taken' taken'' : Finset ℕ}

/-- Only words of the pages of the space are written. -/
theorem write (h : ∀ a, (role (a / 4096)).owner ≠ some s → m' a = m a) :
    Grown s m m' role role taken taken :=
  ⟨fun _ _ => rfl, fun _ hk => absurd rfl hk, fun _ _ hk => absurd rfl hk, fun _ _ => by simp, h⟩

theorem owner (h : Grown s m m' role role' taken taken') {k : ℕ} (hk : (role k).owner = some s) :
    role' k = role k :=
  h.keeps k fun h0 => by rw [h0] at hk; exact absurd hk (by simp [Role.owner])

theorem trans (h : Grown s m m' role role' taken taken')
    (h' : Grown s m' m'' role' role'' taken' taken'') :
    Grown s m m'' role role'' taken taken'' := by
  have hgain : ∀ k, role' k ≠ role k → role'' k = role' k := fun k hk => h'.owner (h.gains k hk)
  refine ⟨fun k hk => ?_, fun k hk => ?_, fun k hlt hk => ?_, fun k hk => ?_, fun a ha => ?_⟩
  · rw [h'.keeps k (by rwa [h.keeps k hk]), h.keeps k hk]
  · by_cases heq : role' k = role k
    · exact h'.gains k (heq ▸ hk)
    · rw [hgain k heq]
      exact h.gains k heq
  · by_cases heq : role' k = role k
    · exact fun hmem => h'.fresh k hlt (heq ▸ hk) ((h.taken_iff k hlt).mpr (.inl hmem))
    · exact h.fresh k hlt heq
  · rw [h'.taken_iff k hk, h.taken_iff k hk, or_assoc]
    refine or_congr_right ⟨?_, fun hk => ?_⟩
    · rintro (hne | hne)
      · rwa [hgain k hne]
      · by_cases heq : role' k = role k
        · rwa [← heq]
        · exact absurd (hgain k heq) hne
    · by_cases heq : role' k = role k
      · exact .inr (heq ▸ hk)
      · exact .inl heq
  · have ha' : (role' (a / 4096)).owner ≠ some s := fun h0 => ha (by rw [h'.owner h0]; exact h0)
    rw [h'.frame a ha, h.frame a ha']

end Grown

/-- A page becomes a table of the space. -/
theorem Fresh.grown {s page : UInt32} {m m' : Mem} {p : Pmm} {role : ℕ → Role}
    {usable taken : Finset ℕ} (hf : Fresh p role usable taken page) {r : Role}
    (hr : r.owner = some s)
    (hm : ∀ a, a / 4096 ≠ page.toNat / 4096 → (role (a / 4096)).owner ≠ some s → m' a = m a) :
    Grown s m m' role (update role (page.toNat / 4096) r) taken
      (insert (page.toNat / 4096) taken) := by
  have hne : r ≠ .other := by
    rintro rfl
    exact absurd hr (by simp [Role.owner])
  refine ⟨fun k hk => ?_, fun k hk => ?_, fun k _ hk => ?_, fun k _ => ?_, fun a ha => ?_⟩
  · rw [update_of_ne]
    rintro rfl
    exact hk hf.other
  · by_cases heq : k = page.toNat / 4096
    · rw [heq, update_self]
      exact hr
    · exact absurd (update_of_ne heq ..) hk
  · by_cases heq : k = page.toNat / 4096
    · rw [heq]
      exact hf.free
    · exact absurd (update_of_ne heq ..) hk
  · rw [Finset.mem_insert, or_comm]
    refine or_congr_right ⟨?_, fun hk => ?_⟩
    · rintro rfl
      rw [update_self, hf.other]
      exact hne
    · by_contra heq
      exact hk (update_of_ne heq ..)
  · by_cases heq : a / 4096 = page.toNat / 4096
    · rw [heq, update_self] at ha
      exact absurd hr ha
    · rw [update_of_ne heq] at ha
      exact hm a heq ha

namespace Paging

variable {L : SpaceLayout} {K : KernelStatics} {st : Paging} {role : ℕ → Role}
  {usable taken : Finset ℕ} {m : Mem} {s d t e w : UInt32} {i j : ℕ}

/-! ### Mapping a page -/

/-- The contents of a table that `ensure_table` makes: it is empty, or a copy of the table that it
replaces. -/
def Copies (L : SpaceLayout) (K : KernelStatics) (st : Paging) (s d : UInt32) (i : ℕ)
    (c : ℕ → UInt32) : Prop :=
  isPresent (entry st.mem d i) = false ∧ c = (fun _ => 0) ∨
  isPresent (entry st.mem d i) = true ∧ s ≠ K.kernelSpace ∧ ownedTable L st s i = 0 ∧
    c = fun j => entry st.mem (pageOf (entry st.mem d i)) j

/-- `ensure_table` keeps the table that is there. -/
def Keeps (L : SpaceLayout) (K : KernelStatics) (st : Paging) (s d : UInt32) (i : ℕ) : Prop :=
  isPresent (entry st.mem d i) = true ∧ (s = K.kernelSpace ∨ ownedTable L st s i ≠ 0)

theorem Copies.eq_lookup {c : ℕ → UInt32} (h : Copies L K st s d i c) : c = lookup st.mem d i := by
  funext j
  unfold lookup
  rcases h with ⟨hp, rfl⟩ | ⟨hp, -, -, rfl⟩
  · rw [hp]
    rfl
  · rw [hp]
    rfl

/-- **What `ensure_table` does**: nothing, if no page is left; it puts a new table into the
directory; or it keeps the table. -/
theorem ensureTable_cases (h : Sound st.pmm role usable taken) (hd : pageDirectory L st s = d)
    (i : ℕ) (flags : UInt32) :
    ensureTable L K st s i flags = (0, st) ∨
    (∃ t p' c, Fresh p' role usable taken t ∧ Copies L K st s d i c ∧
      ensureTable L K st s i flags = (t, { st with
        mem := installTable L st.mem s d i t c
          (t ||| pagePresent ||| pageWritable ||| (flags &&& pageUser))
        pmm := p' })) ∨
    (Keeps L K st s d i ∧
      ensureTable L K st s i flags = (pageOf (entry st.mem d i), { st with
        mem := setEntry st.mem d i
          (entry st.mem d i ||| (flags &&& (pageWritable ||| pageUser))) })) := by
  unfold ensureTable
  rw [hd]
  by_cases hp : isPresent (entry st.mem d i) = false
  · -- there is no table: a new one is needed
    rcases h.pmmAllocPage_cases with hnull | ⟨t, p', heq, hf⟩
    · exact .inl (by simp [hp, hnull])
    · refine .inr (.inl ⟨t, p', _, hf, .inl ⟨hp, rfl⟩, ?_⟩)
      simp only [hp, heq, if_true, if_neg hf.ne]
      rfl
  · rw [Bool.not_eq_false] at hp
    by_cases hs : s ≠ K.kernelSpace ∧ ownedTable L st s i = 0
    · -- the table is shared with the kernel: it is copied
      rcases h.pmmAllocPage_cases with hnull | ⟨t, p', heq, hf⟩
      · exact .inl (by simp [hp, hs, hnull])
      · refine .inr (.inl ⟨t, p', _, hf, .inr ⟨hp, hs.1, hs.2, rfl⟩, ?_⟩)
        simp only [hp, heq, if_pos hs, if_neg hf.ne]
        rfl
    · exact .inr (.inr ⟨⟨hp, by tauto⟩, by simp [hp, hs]⟩)

/-- The entry `e` of a directory refers to the table `t`, and lets pages with `flags` through. -/
structure RefersTo (e t flags : UInt32) : Prop where
  present : isPresent e = true
  page : pageOf e = t
  user : isUser flags = true → isUser e = true

theorem and_toNat_lt (f : UInt32) {mask : UInt32} (h : mask.toNat < 4096) :
    (f &&& mask).toNat < 4096 := by
  rw [UInt32.toNat_and]
  exact lt_of_le_of_lt Nat.and_le_right h

theorem RefersTo.new (ht : t.toNat % 4096 = 0) (flags : UInt32) :
    RefersTo (t ||| pagePresent ||| pageWritable ||| (flags &&& pageUser)) t flags := by
  refine ⟨?_, ?_, fun hu => ?_⟩
  · rw [isPresent_or, isPresent_or, isPresent_or]
    simp [show isPresent pagePresent = true from rfl]
  · rw [pageOf_or _ (and_toNat_lt _ (by decide)), pageOf_or _ (by decide),
      pageOf_or _ (by decide), pageOf_of_aligned ht]
  · rw [isUser_or, isUser_and, hu]
    exact Bool.or_true _

theorem RefersTo.flags (hp : isPresent e = true) (flags : UInt32) :
    RefersTo (e ||| (flags &&& (pageWritable ||| pageUser))) (pageOf e) flags := by
  refine ⟨?_, pageOf_or e (and_toNat_lt _ (by decide)), fun hu => ?_⟩
  · rw [isPresent_or, hp]
    exact Bool.true_or _
  · rw [isUser_or, isUser_and, hu]
    exact Bool.or_true _

/-- **What `paging_map_page_in_space` does.** -/
theorem pagingMapPageInSpace_cases (h : Sound st.pmm role usable taken) (hs : s ≠ 0)
    (hd : pageDirectory L st s = d) (hd0 : d ≠ 0) (v pa flags : UInt32) :
    pagingMapPageInSpace L K st s v pa flags = (false, st) ∨
    (∃ t p' c e, Fresh p' role usable taken t ∧ Copies L K st s d (directoryIndex v) c ∧
      RefersTo e t flags ∧ pagingMapPageInSpace L K st s v pa flags = (true, { st with
        mem := setEntry (installTable L st.mem s d (directoryIndex v) t c e)
          t (tableIndex v) (pageOf pa ||| pagePresent ||| flags)
        pmm := p' })) ∨
    (Keeps L K st s d (directoryIndex v) ∧
      ∃ e', RefersTo e' (pageOf (entry st.mem d (directoryIndex v))) flags ∧
      (pageOf (entry st.mem d (directoryIndex v)) = 0 ∧
        pagingMapPageInSpace L K st s v pa flags
          = (false, { st with mem := setEntry st.mem d (directoryIndex v) e' }) ∨
      pageOf (entry st.mem d (directoryIndex v)) ≠ 0 ∧
        pagingMapPageInSpace L K st s v pa flags = (true, { st with
          mem := setEntry (setEntry st.mem d (directoryIndex v) e')
            (pageOf (entry st.mem d (directoryIndex v))) (tableIndex v)
            (pageOf pa ||| pagePresent ||| flags) }))) := by
  unfold pagingMapPageInSpace
  rw [hd, if_neg (by tauto)]
  dsimp only
  rw [directoryIndex_pageOf, tableIndex_pageOf]
  rcases ensureTable_cases (K := K) h hd (directoryIndex v) flags with
    heq | ⟨t, p', c, hf, hc, heq⟩ | ⟨hk, heq⟩
  · rw [heq]
    exact .inl (if_pos rfl)
  · rw [heq]
    exact .inr (.inl ⟨t, p', c, _, hf, hc, .new hf.aligned flags, if_neg hf.ne⟩)
  · rw [heq]
    refine .inr (.inr ⟨hk, _, .flags hk.1 flags, ?_⟩)
    by_cases h0 : pageOf (entry st.mem d (directoryIndex v)) = 0
    · exact .inl ⟨h0, if_pos h0⟩
    · exact .inr ⟨h0, if_neg h0⟩

/-- The space `s` with directory `d` has the word `w` as entry `j` of its table `i`, which lies at
`t`; for the rest that table reads as before. The entry `e` of the directory refers to the table. -/
structure Mapped (s d : UInt32) (i j : ℕ) (t e w : UInt32) (m m' : Mem) (role role' : ℕ → Role) :
    Prop where
  aligned : t.toNat % 4096 = 0
  keeps : ∀ k, k ≠ t.toNat / 4096 → role' k = role k
  role_table : role' (t.toNat / 4096) = .table s i
  present : isPresent e = true
  page : pageOf e = t
  dir_entry : ∀ i' < 1024, entry m' d i' = if i' = i then e else entry m d i'
  table_entry : ∀ j' < 1024, entry m' t j' = if j' = j then w else lookup m d i j'
  frame : ∀ a, role' (a / 4096) ≠ .struct s → role' (a / 4096) ≠ .directory s →
    role' (a / 4096) ≠ .table s i → m' a = m a

/-- The table that a space gets, filled and with one entry written. -/
theorem Mapped.of_new (ho : Owns L m role s d) (hi : i < 1023) (hj : j < 1024)
    (ht : t.toNat % 4096 = 0) (hother : role (t.toNat / 4096) = .other)
    (hpresent : isPresent e = true) (hpage : pageOf e = t) :
    Mapped s d i j t e w m (setEntry (installTable L m s d i t (lookup m d i) e) t j w) role
      (update role (t.toNat / 4096) (.table s i)) := by
  have hdir : d.toNat / 4096 ≠ t.toNat / 4096 := page_ne_of_role ho.dir_role hother (by simp)
  refine ⟨ht, fun k hk => update_of_ne hk .., update_self .., hpresent, hpage,
    fun i' hi' => ?_, fun j' hj' => ?_,
    fun a h1 h2 h3 => ?_⟩
  · rw [entry_of_page ho.dir_aligned hi' fun k hk => setEntry_of_page ht hj (hk ▸ hdir),
      ho.entry_installTable hi hi' hother ht]
  · rw [entry_setEntry ht, ho.entry_installTable_self hi hj' hother ht]
  · -- the page is neither that of the structure nor the directory's nor the new one
    have hta : a / 4096 ≠ t.toNat / 4096 := fun h0 => h3 (by rw [h0, update_self])
    rw [update_of_ne hta] at h1 h2
    rw [setEntry_of_page ht hj hta]
    refine installTable_of_page ho.dir_aligned ht (ho.owned_aligned i) (by omega) ?_ hta ?_
    · exact fun h0 => h2 (h0 ▸ ho.dir_role)
    · exact fun h0 => h1 (h0 ▸ ho.owned_role hi)

/-- The table that a space has, with one entry written. -/
theorem Mapped.of_kept (ho : Owns L m role s d) (hi : i < 1023) (hj : j < 1024)
    (hrole : role (t.toNat / 4096) = .table s i) (hold : isPresent (entry m d i) = true)
    (ht : pageOf (entry m d i) = t) (hpresent : isPresent e = true) (hpage : pageOf e = t) :
    Mapped s d i j t e w m (setEntry (setEntry m d i e) t j w) role role := by
  have halign : t.toNat % 4096 = 0 := ht ▸ pageOf_aligned _
  have hdir : d.toNat / 4096 ≠ t.toNat / 4096 := page_ne_of_role ho.dir_role hrole (by simp)
  refine ⟨halign, fun _ _ => rfl, hrole, hpresent, hpage, fun i' hi' => ?_, fun j' hj' => ?_,
    fun a _ h2 h3 => ?_⟩
  · rw [entry_of_page ho.dir_aligned hi' fun k hk => setEntry_of_page halign hj (hk ▸ hdir),
      entry_setEntry ho.dir_aligned]
  · unfold lookup
    rw [entry_setEntry halign, hold, if_pos rfl, ht, entry_of_page halign hj' fun k hk =>
      setEntry_of_page ho.dir_aligned (show i < 1024 by omega) (hk ▸ hdir.symm)]
  · rw [setEntry_of_page halign hj fun h0 => h3 (h0 ▸ hrole),
      setEntry_of_page ho.dir_aligned (by omega) fun h0 => h2 (h0 ▸ ho.dir_role)]

/-- A write to a table of the space is not seen in its structure and its directory. -/
theorem setEntry_table (halign : t.toNat % 4096 = 0) (hr : role (t.toNat / 4096) = .table s i)
    (hj : j < 1024) (k : ℕ) (hk : role (k / 4096) = .struct s ∨ role (k / 4096) = .directory s) :
    setEntry m t j w k = m k := by
  refine setEntry_of_page halign hj ?_
  rcases hk with hk | hk
  · exact page_ne_of_role hk hr (by simp)
  · exact page_ne_of_role hk hr (by simp)

/-- The space `s` with directory `d` before and after an operation that may give it pages. -/
structure Extends (L : SpaceLayout) (usable : Finset ℕ) (s d : UInt32) (st st' : Paging)
    (role role' : ℕ → Role) (taken taken' : Finset ℕ) : Prop where
  sound : Sound st'.pmm role' usable taken'
  owns : Owns L st'.mem role' s d
  linked : Linked L st'.mem s d
  spill : Spill L st.mem role s d → Spill L st'.mem role' s d
  grown : Grown s st.mem st'.mem role role' taken taken'
  current : st'.currentSpace = st.currentSpace

section

variable (h : Sound st.pmm role usable taken) (ho : Owns L st.mem role s d)
  (hl : Linked L st.mem s d)
include h ho hl

/-- A space that gets a table. -/
theorem Extends.of_new {p' : Pmm} (hi : i < 1023) (hj : j < 1024)
    (hf : Fresh p' role usable taken t) (hown : st.mem.load32 (L.ownedAt s i) = 0)
    (hpresent : isPresent e = true) (hpage : pageOf e = t) :
    Extends L usable s d st
      { st with
        mem := setEntry (installTable L st.mem s d i t (lookup st.mem d i) e) t j w
        pmm := p' }
      role (update role (t.toNat / 4096) (.table s i)) taken
      (insert (t.toNat / 4096) taken) := by
  have hmapped := Mapped.of_new (w := w) ho hi hj hf.aligned hf.other hpresent hpage
  have htable :=
    setEntry_table (m := installTable L st.mem s d i t (lookup st.mem d i) e) (w := w)
      hmapped.aligned hmapped.role_table hj
  have ho' := ho.installTable (c := lookup st.mem d i) (e := e) hi hown hf.aligned hf.ne hf.other
  have hl' := hl.installTable (c := lookup st.mem d i) ho hi hf.aligned hf.other hpresent hpage
  exact
    { sound := h.take hf _
      owns := ho'.congr (fun k hk => htable k (.inl hk)) fun _ _ => rfl
      linked := hl'.congr ho' htable
      spill := fun hs => (hs.installTable ho hi hf.aligned hf.other hpresent).congr ho' htable
        fun _ _ => rfl
      grown := hf.grown rfl fun a hta ha => by
        refine hmapped.frame a ?_ ?_ ?_ <;> rw [update_of_ne hta] <;> intro h0 <;>
          exact ha (by rw [h0]; rfl)
      current := rfl }

/-- A space that has the table already. -/
theorem Extends.of_kept (hi : i < 1023) (hj : j < 1024)
    (hrole : role (t.toNat / 4096) = .table s i) (hold : isPresent (entry st.mem d i) = true)
    (ht : pageOf (entry st.mem d i) = t) (hpresent : isPresent e = true) (hpage : pageOf e = t) :
    Extends L usable s d st { st with mem := setEntry (setEntry st.mem d i e) t j w } role role
      taken taken := by
  have hmapped := Mapped.of_kept (w := w) ho hi hj hrole hold ht hpresent hpage
  have htable := setEntry_table (m := setEntry st.mem d i e) (w := w) hmapped.aligned hrole hj
  have ho' : Owns L (setEntry st.mem d i e) role s d := ho.congr (fun k hk =>
    setEntry_of_page ho.dir_aligned (by omega) (page_ne_of_role hk ho.dir_role (by simp)))
    fun _ _ => rfl
  exact
    { sound := h
      owns := ho'.congr (fun k hk => htable k (.inl hk)) fun _ _ => rfl
      linked := (hl.setEntry ho (by omega) hpresent (hpage.trans ht.symm)).congr ho' htable
      spill := fun hs => (hs.setEntry ho (by omega) hpresent).congr ho' htable fun _ _ => rfl
      grown := .write fun a ha => by
        refine hmapped.frame a ?_ ?_ ?_ <;> intro h0 <;> exact ha (by rw [h0]; rfl)
      current := rfl }

/-- **`paging_map_page_in_space`** on a process space, outside of the last 4 MiB: it fails and
changes nothing, or it maps the page in a table of the space's own. -/
theorem map_cases (hks : s ≠ K.kernelSpace) (v pa flags : UInt32) (hi : directoryIndex v < 1023) :
    pagingMapPageInSpace L K st s v pa flags = (false, st) ∨
    ∃ t e st' role' taken', pagingMapPageInSpace L K st s v pa flags = (true, st') ∧
      Extends L usable s d st st' role role' taken taken' ∧
      Mapped s d (directoryIndex v) (tableIndex v) t e (pageOf pa ||| pagePresent ||| flags)
        st.mem st'.mem role role' ∧
      (isUser flags = true → isUser e = true) := by
  have hj := tableIndex_lt v
  generalize hw : pageOf pa ||| pagePresent ||| flags = w
  generalize hi' : directoryIndex v = i at hi
  rcases pagingMapPageInSpace_cases (K := K) h ho.space_ne ho.dir_eq ho.dir_ne v pa flags with
    heq | ⟨t, p', c, e, hf, hc, he, heq⟩ | ⟨⟨hp, hk⟩, e', he', hcase⟩
  · exact .inl heq
  · -- a new table: the structure had none
    rw [hi', hw] at heq
    rw [hi'] at hc
    have hown0 : st.mem.load32 (L.ownedAt s i) = 0 := by
      rcases hc with ⟨hp, -⟩ | ⟨-, -, h0, -⟩
      · by_contra h0
        rw [(hl _ hi h0).1] at hp
        cases hp
      · exact h0
    obtain rfl := hc.eq_lookup
    exact .inr ⟨t, e, _, _, _, heq, .of_new h ho hl hi hj hf hown0 he.present he.page,
      .of_new ho hi hj hf.aligned hf.other he.present he.page, he.user⟩
  · -- the structure names the table that is there
    rw [hi', hw] at hcase
    rw [hi'] at hp hk he'
    have hown := hk.resolve_left hks
    have ht := (hl _ hi hown).2
    have hrole := ho.table_role hi hown
    rw [← ht] at hrole
    rcases hcase with ⟨h0, -⟩ | ⟨-, heq⟩
    · exact absurd (ht.symm.trans h0) hown
    · exact .inr ⟨_, e', _, _, _, heq, .of_kept h ho hl hi hj hrole hp rfl he'.present he'.page,
        .of_kept ho hi hj hrole hp rfl he'.present he'.page, he'.user⟩

end

/-- It does not fail as long as there is a page for a table, or the space has the table already. -/
theorem map_succeeds (hs : s ≠ 0) (hd : pageDirectory L st s = d) (hd0 : d ≠ 0)
    (hl : Linked L st.mem s d) (hks : s ≠ K.kernelSpace) (v pa flags : UInt32)
    (hi : directoryIndex v < 1023)
    (h : st.pmm.pmmAllocPage.1 ≠ 0 ∨ ownedTable L st s (directoryIndex v) ≠ 0) :
    (pagingMapPageInSpace L K st s v pa flags).1 = true := by
  have hlink := hl _ hi
  unfold pagingMapPageInSpace
  rw [hd, if_neg (by simp [hs, hd0])]
  dsimp only
  rw [directoryIndex_pageOf, tableIndex_pageOf]
  suffices hne : (ensureTable L K st s (directoryIndex v) flags).1 ≠ 0 by rw [if_neg hne]
  unfold ensureTable
  rw [hd]
  by_cases hown : ownedTable L st s (directoryIndex v) = 0
  · -- a page is allocated, for an empty table or for a copy
    have halloc := h.resolve_right (not_not_intro hown)
    by_cases hp : isPresent (entry st.mem d (directoryIndex v)) = false
    · simp [hp, halloc]
    · simp [hp, hks, hown, halloc]
  · obtain ⟨hp, hpage⟩ := hlink hown
    simp only [hp, hown, hpage, Bool.true_eq_false, if_false, and_false]
    exact hown

end Paging

end MyOS
