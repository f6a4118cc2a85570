import MyOS.User.Pages
import MyOS.Paging.UserPages

/-!
# The image of a program

What user mode sees of the image that `run_loaded_image` has loaded. `prepareImage` does not look at
the image: it takes the pages and maps them. `Building` is what holds between its steps, with the
structure of the space in the memory (`packedLayout`): the pages that have been taken for the image
and the stack have no other use, so writing to them changes neither the directory nor a table. It
needs at most twenty free pages and maps the pages one behind the other, for user mode
(`prepareImage_cases`), and a program then reads the image, followed by zeros
(`Prepared.byte_fill`).
-/

namespace MyOS

open Paging List

/-! ### Pages that user mode sees -/

/-- The directory `d` maps the page of `v` to `page`, for user mode. -/
structure PageAt (m : Mem) (d v page : UInt32) : Prop where
  dir_present : isPresent (entry m d (directoryIndex v)) = true
  dir_user : isUser (entry m d (directoryIndex v)) = true
  table : entry m (pageOf (entry m d (directoryIndex v))) (tableIndex v) =
    page ||| pagePresent ||| userPageFlags

/-- Only the page of the address matters. -/
theorem PageAt.of_index {m : Mem} {d v v' page : UInt32} (h : PageAt m d v page)
    (hi : directoryIndex v' = directoryIndex v) (hj : tableIndex v' = tableIndex v) :
    PageAt m d v' page := by
  refine ⟨?_, ?_, ?_⟩
  · rw [hi]
    exact h.dir_present
  · rw [hi]
    exact h.dir_user
  · rw [hi, hj]
    exact h.table

/-- The byte that user mode reads at `v` in the space `s`, if its page is there for user mode. -/
def userByte (st : Paging) (s v : UInt32) : Option UInt8 :=
  let e := entry st.mem (pageDirectory packedLayout st s) (directoryIndex v)
  let t := entry st.mem (pageOf e) (tableIndex v)
  if isPresent e && isUser e && (isPresent t && isUser t) then
    some (st.mem ((pageOf t).toNat + v.toNat % 4096))
  else none

section UserEntry

variable (page : UInt32)

/-- The entry that `run_loaded_image` writes for a page. -/
theorem userEntry_present : isPresent (page ||| pagePresent ||| userPageFlags) = true := by
  rw [isPresent_or, isPresent_or]
  simp [show isPresent pagePresent = true from rfl]

theorem userEntry_user : isUser (page ||| pagePresent ||| userPageFlags) = true := by
  rw [isUser_or]
  simp [show isUser userPageFlags = true from rfl]

theorem userEntry_page {page : UInt32} (hpage : page.toNat % 4096 = 0) :
    pageOf (page ||| pagePresent ||| userPageFlags) = page := by
  rw [pageOf_or _ (by decide), pageOf_or _ (by decide), pageOf_of_aligned hpage]

end UserEntry

section

variable {st : Paging} {s d v page : UInt32} (hd : pageDirectory packedLayout st s = d)
  (h : PageAt st.mem d v page)
include hd h

theorem PageAt.userByte (hpage : page.toNat % 4096 = 0) :
    userByte st s v = some (st.mem (page.toNat + v.toNat % 4096)) := by
  unfold MyOS.userByte
  rw [hd]
  dsimp only
  rw [h.dir_present, h.dir_user, h.table, userEntry_present, userEntry_user, userEntry_page hpage]
  rfl

theorem PageAt.userAccessible :
    UserAccessible st s v := by
  unfold UserAccessible
  rw [hd]
  dsimp only
  rw [h.table]
  exact ⟨h.dir_present, h.dir_user, userEntry_present page, userEntry_user page⟩

end

/-! ### Taking and mapping pages -/

/-- The tables of the kernel lie in the kernel. -/
def KernelBelow (K : KernelStatics) (m : Mem) : Prop :=
  ∀ i < 1024, isPresent (entry m K.kernelPageDirectory i) = true →
    (pageOf (entry m K.kernelPageDirectory i)).toNat < K.kernelEnd.toNat

/-- What a space with directory `d` shares with the kernel, whose memory was `m0`: all but the
second 4 MiB, and of these all but the first seventeen pages. -/
structure Shares (K : KernelStatics) (m0 : Mem) (d : UInt32) (m : Mem) : Prop where
  kernel : ∀ a, a / 4096 * 4096 < K.kernelEnd.toNat → m a = m0 a
  directory : ∀ i < 1024, i ≠ 1 → entry m d i = entry m0 K.kernelPageDirectory i
  table : KernelBelow K m0 → ∀ j < 1024, 17 ≤ j →
    lookup m d 1 j = lookup m0 K.kernelPageDirectory 1 j

section Mapped

variable {K : KernelStatics} {m0 m m' : Mem} {s d t e v page : UInt32} {role role' : ℕ → Role}

/-- A page that has just been mapped. -/
theorem Paging.Mapped.pageAt (hm : Mapped s d (directoryIndex v) (tableIndex v) t e
      (pageOf page ||| pagePresent ||| userPageFlags) m m' role role')
    (huser : isUser e = true) (hpage : page.toNat % 4096 = 0) : PageAt m' d v page := by
  have hdir := hm.dir_entry (directoryIndex v) (directoryIndex_lt v)
  rw [if_pos rfl] at hdir
  refine ⟨hdir ▸ hm.present, hdir ▸ huser, ?_⟩
  rw [hdir, hm.page, hm.table_entry _ (tableIndex_lt v), if_pos rfl, pageOf_of_aligned hpage]

/-- The other pages of the table are still mapped. -/
theorem Paging.Mapped.pageAt_of_ne {i j : ℕ} {w : UInt32}
    (hm : Mapped s d i j t e w m m' role role') (huser : isUser e = true)
    (hi : directoryIndex v = i) (hj : tableIndex v ≠ j) (hold : PageAt m d v page) :
    PageAt m' d v page := by
  have hdir := hm.dir_entry (directoryIndex v) (directoryIndex_lt v)
  rw [if_pos hi] at hdir
  refine ⟨hdir ▸ hm.present, hdir ▸ huser, ?_⟩
  rw [hdir, hm.page, hm.table_entry _ (tableIndex_lt v), if_neg hj, lookup, ← hi,
    if_pos hold.dir_present]
  exact hold.table

/-- Mapping one of the first seventeen pages of the second 4 MiB. -/
theorem Shares.mapped {j : ℕ} {w : UInt32} (h : Shares K m0 d m)
    (hm : Mapped s d 1 j t e w m m' role role') (hj : j < 17)
    (hkernel : ∀ k, k * 4096 < K.kernelEnd.toNat → role' k = .other) : Shares K m0 d m' := by
  refine ⟨?_, ?_, ?_⟩
  · intro a ha
    have hother := hkernel (a / 4096) ha
    rw [hm.frame a (by rw [hother]; simp) (by rw [hother]; simp) (by rw [hother]; simp)]
    exact h.kernel a ha
  · intro i hi hne
    rw [hm.dir_entry i hi, if_neg hne]
    exact h.directory i hi hne
  · intro hbelow j' hj' hle
    rw [← h.table hbelow j' hj' hle, lookup, hm.dir_entry 1 (by omega), if_pos rfl,
      if_pos hm.present, hm.page, hm.table_entry j' hj', if_neg (by omega)]

end Mapped

/-- The space `s` is being built, and the `pages` have been taken for its program; the memory was
`m0` before. -/
structure Building (K : KernelStatics) (m0 : Mem) (usable : Finset ℕ) (pages : List UInt32)
    (s d : UInt32) (st : Paging) (role : ℕ → Role) (taken : Finset ℕ) : Prop where
  sound : Sound st.pmm role usable taken
  above : ∀ k ∈ usable, K.kernelEnd.toNat ≤ k * 4096
  kernel_other : ∀ k, k * 4096 < K.kernelEnd.toNat → role k = .other
  shares : Shares K m0 d st.mem
  owns : Owns packedLayout st.mem role s d
  linked : Linked packedLayout st.mem s d
  aligned : ∀ page ∈ pages, page.toNat % 4096 = 0
  nodup : (pageNumbers pages).Nodup
  held : ∀ k ∈ pageNumbers pages, k ∈ taken
  other : ∀ k ∈ pageNumbers pages, role k = .other

section Building

variable {K : KernelStatics} {m0 : Mem} {usable base taken : Finset ℕ}
  {pages pages' rest : List UInt32} {page s d : UInt32} {st st' : Paging} {role : ℕ → Role}

/-- A page less is free. -/
theorem card_take {k : ℕ} (hk : k ∈ usable) (hk' : k ∉ taken) :
    (usable \ insert k taken).card + 1 = (usable \ taken).card := by
  rw [Finset.sdiff_insert, Finset.card_erase_add_one (Finset.mem_sdiff.mpr ⟨hk, hk'⟩)]

/-- `pmm_alloc_page` returns null only when nothing is free. -/
theorem card_null {p : Pmm} (h : p.Tracks usable taken) (hnull : p.pmmAllocPage.1 = 0) :
    (usable \ taken).card = 0 := by
  rw [Finset.card_eq_zero, ← Finset.not_nonempty_iff_eq_empty]
  exact fun hfree => h.pmmAllocPage_ne hfree hnull

/-- The free pages that the allocator counts. -/
theorem card_free {p : Pmm} {usable taken : Finset ℕ} (h : p.Tracks usable taken) :
    (usable \ taken).card + p.usedPagesCount.toNat = p.totalPagesCount.toNat := by
  rw [h.used, h.total]
  exact Finset.card_sdiff_add_card_eq_card h.subset

namespace Building

theorem perm (h : Building K m0 usable pages s d st role taken) (hp : pages.Perm pages') :
    Building K m0 usable pages' s d st role taken := by
  have hnum : (pageNumbers pages).Perm (pageNumbers pages') := hp.map _
  exact { h with
      aligned := fun page hpage => h.aligned page (hp.mem_iff.mpr hpage)
      nodup := hnum.nodup_iff.mp h.nodup
      held := fun k hk => h.held k (hnum.mem_iff.mpr hk)
      other := fun k hk => h.other k (hnum.mem_iff.mpr hk) }

/-- `pmm_alloc_page` gives one more page. -/
theorem alloc (h : Building K m0 usable pages s d st role taken) :
    st.pmm.pmmAllocPage = (0, st.pmm) ∧ (usable \ taken).card = 0 ∨
    ∃ page p', st.pmm.pmmAllocPage = (page, p') ∧ page ≠ 0 ∧
      Building K m0 usable (page :: pages) s d { st with pmm := p' } role
        (insert (page.toNat / 4096) taken) ∧
      (usable \ insert (page.toNat / 4096) taken).card + 1 = (usable \ taken).card := by
  rcases h.sound.pmmAllocPage_cases with hnull | ⟨page, p', heq, hf⟩
  · exact .inl ⟨hnull, card_null h.sound.tracks (by rw [hnull])⟩
  have hsound := h.sound.take hf .other
  rw [Function.update_eq_self_iff.mpr hf.other.symm] at hsound
  refine .inr ⟨page, p', heq, hf.ne, { h with
      sound := hsound
      aligned := forall_mem_cons.mpr ⟨hf.aligned, h.aligned⟩
      nodup := nodup_cons.mpr ⟨fun hmem => hf.free (h.held _ hmem), h.nodup⟩
      held := forall_mem_cons.mpr ⟨Finset.mem_insert_self .., fun k hk =>
        Finset.mem_insert_of_mem (h.held k hk)⟩
      other := forall_mem_cons.mpr ⟨hf.other, h.other⟩ }, card_take hf.mem hf.free⟩

/-- The loop that allocates the pages of the image. -/
theorem allocImagePages (n : ℕ) (pages : List UInt32)
    (h : Building K m0 usable (pages ++ rest) s d st role taken) :
    (∃ e, allocImagePages n pages st.pmm = .error e ∧ (usable \ taken).card < n) ∨
    ∃ pages' p' taken', allocImagePages n pages st.pmm = .ok (pages', p') ∧
      pages'.length = pages.length + n ∧
      Building K m0 usable (pages' ++ rest) s d { st with pmm := p' } role taken' ∧
      (usable \ taken').card + n = (usable \ taken).card := by
  induction n generalizing pages st taken with
  | zero => exact .inr ⟨pages, st.pmm, taken, rfl, rfl, h, rfl⟩
  | succ n ih =>
    unfold MyOS.allocImagePages
    rcases h.alloc with ⟨hnull, hcard⟩ | ⟨page, p', heq, hne, h', hcard⟩
    · rw [hnull]
      exact .inl ⟨_, if_pos rfl, by omega⟩
    · rw [heq]
      dsimp only
      rw [if_neg hne]
      have hperm : (page :: (pages ++ rest)).Perm ((pages ++ [page]) ++ rest) := by
        rw [append_assoc]
        exact perm_middle.symm
      rcases ih _ (h'.perm hperm) with ⟨e, hfail, hlt⟩ | ⟨pages', p'', taken', hok, hlen, hh, hleft⟩
      · exact .inl ⟨e, hfail, by omega⟩
      · refine .inr ⟨pages', p'', taken', hok, ?_, hh, by omega⟩
        rw [hlen, length_append, length_singleton]
        omega

/-- `paging_map_page_in_space` for user mode: it fails only if there is neither a table nor a page
for one; otherwise the page is where it is expected, and so are the pages of the same table from
before. -/
theorem map (h : Building K m0 usable pages s d st role taken)
    (hks : s ≠ K.kernelSpace) {v : UInt32}
    (hone : directoryIndex v = 1) (hj : tableIndex v < 17) (hpage : page.toNat % 4096 = 0) :
    pagingMapPageInSpace packedLayout K st s v page userPageFlags = (false, st) ∧
        (usable \ taken).card = 0 ∧ ownedTable packedLayout st s (directoryIndex v) = 0 ∨
    ∃ st' role' taken',
      pagingMapPageInSpace packedLayout K st s v page userPageFlags = (true, st') ∧
      Building K m0 usable pages s d st' role' taken' ∧
      ownedTable packedLayout st' s (directoryIndex v) ≠ 0 ∧ PageAt st'.mem d v page ∧
      ∀ v' page', directoryIndex v' = directoryIndex v → tableIndex v' ≠ tableIndex v →
        PageAt st.mem d v' page' → PageAt st'.mem d v' page' := by
  have hv : directoryIndex v < 1023 := by omega
  rcases map_cases (K := K) h.sound h.owns h.linked hks v page userPageFlags hv with
    hfail | ⟨t, e, st', role', taken', heq, he, hm, huser⟩
  · refine .inl ⟨hfail, ?_⟩
    -- it would have succeeded with a page or a table
    have hnot := mt (map_succeeds h.owns.space_ne h.owns.dir_eq h.owns.dir_ne h.linked hks v page
      userPageFlags hv) (by rw [hfail]; exact Bool.false_ne_true)
    rw [not_or, not_not, not_not] at hnot
    exact ⟨card_null h.sound.tracks hnot.1, hnot.2⟩
  have hsame : ∀ k ∈ pageNumbers pages, role' k = role k := fun k hk => by
    by_contra hne
    exact he.grown.fresh k (h.sound.lt (h.held k hk)) hne (h.held k hk)
  have hkernel : ∀ k, k * 4096 < K.kernelEnd.toNat → role' k = .other := fun k hk => by
    have hlt := K.kernelEnd.toNat_lt
    by_contra hne
    -- a page that has got a role is one of the allocator's
    have hchanged : role' k ≠ role k := fun h0 => hne (h0.trans (h.kernel_other k hk))
    have htaken := (he.grown.taken_iff k (by omega)).mpr (.inr hchanged)
    have hle := h.above k (he.sound.tracks.subset htaken)
    omega
  refine .inr ⟨st', role', taken', heq, { h with
      sound := he.sound
      kernel_other := hkernel
      shares := h.shares.mapped (hone ▸ hm) hj hkernel
      owns := he.owns
      linked := he.linked
      held := fun k hk =>
        (he.grown.taken_iff k (h.sound.lt (h.held k hk))).mpr (.inl (h.held k hk))
      other := fun k hk => (hsame k hk).trans (h.other k hk) },
    ((he.owns.table_iff _ _).mp hm.role_table).2.1, hm.pageAt (huser rfl) hpage, ?_⟩
  exact fun v' page' hi hj hold => hm.pageAt_of_ne (huser rfl) hi hj hold

end Building

theorem tableIndex_imageAddress {i : ℕ} (hi : i ≤ 16) : tableIndex (imageAddress i) = i := by
  rw [tableIndex_eq, imageAddress_toNat hi]
  omega

/-- The loop that maps the pages of the image: only the first page can fail, for want of a table. -/
theorem Building.mapImagePages (hks : s ≠ K.kernelSpace) (image : List UInt32) {i : ℕ}
    (hi : i + image.length ≤ 16) (himage : ∀ page ∈ image, page.toNat % 4096 = 0)
    (h : Building K m0 usable pages s d st role taken) :
    (∃ e, mapImagePages packedLayout K s image i st = .error e ∧ (usable \ taken).card = 0 ∧
      ownedTable packedLayout st s 1 = 0) ∨
    ∃ st' role' taken', mapImagePages packedLayout K s image i st = .ok st' ∧
      Building K m0 usable pages s d st' role' taken' ∧
      (image ≠ [] ∨ ownedTable packedLayout st s 1 ≠ 0 → ownedTable packedLayout st' s 1 ≠ 0) ∧
      (∀ j page, image[j]? = some page → PageAt st'.mem d (imageAddress (i + j)) page) ∧
      ∀ j < i, ∀ page, PageAt st.mem d (imageAddress j) page →
        PageAt st'.mem d (imageAddress j) page := by
  induction image generalizing i st role taken with
  | nil =>
    refine .inr ⟨st, role, taken, rfl, h, fun hown => ?_, fun j page hj => ?_, fun _ _ _ hp => hp⟩
    · exact hown.resolve_left (not_not_intro rfl)
    · exact nomatch hj
  | cons page image ih =>
    rw [length_cons] at hi
    have hindex := directoryIndex_imageAddress (show i ≤ 16 by omega)
    have hpage := (forall_mem_cons.mp himage).1
    unfold MyOS.mapImagePages
    have htable := tableIndex_imageAddress (show i ≤ 16 by omega)
    rcases h.map hks (v := imageAddress i) hindex (by omega) hpage with
      ⟨hfail, hcard, hown⟩ | ⟨st1, role1, taken1, heq, h1, hown, hat, hkeep⟩
    · rw [hfail]
      rw [hindex] at hown
      exact .inl ⟨_, rfl, hcard, hown⟩
    · rw [heq]
      rw [hindex] at hown
      rcases ih (i := i + 1) (by omega) (forall_mem_cons.mp himage).2 h1 with
        ⟨e, -, -, hnone⟩ | ⟨st2, role2, taken2, hok, h2, hown2, hat2, hkeep2⟩
      · -- the first page has brought the table that the later ones need
        exact absurd hnone hown
      · refine .inr ⟨st2, role2, taken2, hok, h2, fun _ => hown2 (.inr hown), ?_, ?_⟩
        · intro j page' hj
          cases j with
          | zero =>
            cases hj
            exact hkeep2 i (by omega) _ hat
          | succ j =>
            have := hat2 j page' (by simpa using hj)
            rwa [show i + (j + 1) = i + 1 + j by omega]
        · intro j hj page' hp
          refine hkeep2 j (by omega) page' (hkeep _ _ ?_ ?_ hp)
          · rw [hindex, directoryIndex_imageAddress (by omega)]
          · rw [tableIndex_imageAddress (by omega), tableIndex_imageAddress (by omega)]
            omega

/-! ### Writing to the pages -/

section Congr

variable (h : Building K m0 usable pages s d st role taken) {m' : Mem}
  (hm : ∀ a, role (a / 4096) ≠ .other → m' a = st.mem a)

include h hm

/-- A write to pages that have no other use is not seen by the directory. -/
theorem Building.entry_congr {i : ℕ} (hi : i < 1024) : entry m' d i = entry st.mem d i :=
  entry_of_page h.owns.dir_aligned hi fun k hk => hm k (by
    rw [hk, h.owns.dir_role]
    simp)

/-- Neither is it seen by a table of the space. -/
theorem Building.lookup_congr {i j : ℕ} (hi : i < 1023) (hj : j < 1024)
    (hown : ownedTable packedLayout st s i ≠ 0) : lookup m' d i j = lookup st.mem d i j := by
  have htable : role ((pageOf (entry st.mem d i)).toNat / 4096) = .table s i := by
    rw [(h.linked _ hi hown).2]
    exact h.owns.table_role hi hown
  unfold lookup
  rw [h.entry_congr hm (by omega), entry_of_page (pageOf_aligned _) hj fun k hk => hm k (by
    rw [hk, htable]
    simp)]

theorem Building.pageAt_congr {v : UInt32} (hv : directoryIndex v < 1023)
    (hown : ownedTable packedLayout st s (directoryIndex v) ≠ 0) (hp : PageAt st.mem d v page) :
    PageAt m' d v page := by
  have hdir := h.entry_congr hm (directoryIndex_lt v)
  have htable := h.lookup_congr hm hv (tableIndex_lt v) hown
  unfold lookup at htable
  rw [hdir, if_pos hp.dir_present, if_pos hp.dir_present, hp.table] at htable
  exact ⟨hdir ▸ hp.dir_present, hdir ▸ hp.dir_user, hdir ▸ htable⟩

end Congr

/-- The page `j` gets its part of the image. -/
theorem copyFrom_byte (m : Mem) (n : ℕ) (image : ℕ → UInt8) (size : ℕ)
    (hnodup : (pageNumbers pages).Nodup) (hpages : ∀ page ∈ pages, page.toNat % 4096 = 0) {j : ℕ}
    (hj : pages[j]? = some page) {o : ℕ} (ho : o < 4096) :
    copyFrom m pages n image size (page.toNat + o) =
      if 4096 * (n + j) + o < size then image (4096 * (n + j) + o) else m (page.toNat + o) := by
  induction pages generalizing m n j with
  | nil => exact nomatch hj
  | cons first pages ih =>
    rw [forall_mem_cons] at hpages
    have hfirst := hpages.1
    have hcons : copyFrom m (first :: pages) n image size =
        copyFrom (m.storeBytes first.toNat (min 4096 (size - 4096 * n)) fun k =>
          image (4096 * n + k))
          pages (n + 1) image size := rfl
    obtain ⟨hnot, hnodup'⟩ : first.toNat / 4096 ∉ pageNumbers pages ∧ (pageNumbers pages).Nodup :=
      nodup_cons.mp hnodup
    rw [hcons]
    cases j with
    | zero =>
      cases hj
      have hnumber : (page.toNat + o) / 4096 = page.toNat / 4096 := by omega
      rw [copyFrom_of_not_mem _ _ _ _ (hnumber ▸ hnot) hpages.2, Nat.add_zero]
      split_ifs with hlt
      · exact Mem.storeBytes_of_mem _ _ (by omega)
      · exact Mem.storeBytes_of_not_mem _ _ (by omega)
    | succ j =>
      have hj' : pages[j]? = some page := by simpa using hj
      rw [ih _ _ hnodup' hpages.2 hj', show n + 1 + j = n + (j + 1) by omega]
      -- the page is not the first one
      have hmem : page.toNat / 4096 ∈ pageNumbers pages :=
        mem_map_of_mem (mem_of_getElem? hj')
      have hpage := hpages.2 page (mem_of_getElem? hj')
      have hne : page.toNat / 4096 ≠ first.toNat / 4096 := fun h0 => hnot (h0 ▸ hmem)
      rw [Mem.storeBytes_of_not_mem _ _ (by omega)]

/-! ### Preparing the pages -/

/-- The pages of the image and the stack are mapped one behind the other, for user mode. -/
structure Prepared (K : KernelStatics) (m0 : Mem) (l : Loaded) : Prop where
  length : l.imagePages.length = 16
  aligned : ∀ page ∈ l.imagePages ++ [l.stackPage], page.toNat % 4096 = 0
  nodup : (pageNumbers (l.imagePages ++ [l.stackPage])).Nodup
  mapped : ∃ usable d role taken,
    Building K m0 usable (l.imagePages ++ [l.stackPage]) l.space d l.paging role taken ∧
    l.space ≠ K.kernelSpace ∧ ownedTable packedLayout l.paging l.space 1 ≠ 0 ∧
    ∀ j page, (l.imagePages ++ [l.stackPage])[j]? = some page →
      PageAt l.paging.mem d (imageAddress j) page

/-- The stack lies right behind the image. -/
theorem userStackBase_eq : userStackBase = imageAddress 16 := by decide

/-- The directory of a new space is a copy of the kernel's. -/
theorem Shares.createdMem {n : ℕ} (hr : Room packedLayout K n role s d)
    (hsa : s.toNat % 4096 = 0) (hsk : K.kernelEnd.toNat ≤ s.toNat) (hda : d.toNat % 4096 = 0)
    (hdk : K.kernelEnd.toNat ≤ d.toNat) :
    Shares K m0 d (createdMem packedLayout K m0 s d) := by
  -- the kernel is below all that is written
  have hframe : ∀ a, a / 4096 * 4096 < K.kernelEnd.toNat →
      Paging.createdMem packedLayout K m0 s d a = m0 a := by
    intro a ha
    have hstruct : a < packedLayout.directoryAt s := show a < s.toNat + 0 by omega
    have howned : a < packedLayout.ownedAt s 0 := show a < s.toNat + 4 + 4 * 0 by omega
    unfold Paging.createdMem copyPageTable clearedMem
    rw [Mem.store32_of_not_mem _ _ (.inl hstruct),
      Mem.storeWords_of_not_mem _ _ (.inl (show a < d.toNat by omega)),
      Mem.storeWords_of_not_mem _ _ (.inl howned)]
  refine ⟨hframe, fun i hi _ => hr.entry_createdMem hi, fun hbelow j hj _ => ?_⟩
  unfold lookup
  rw [hr.entry_createdMem (by omega)]
  by_cases hp : isPresent (entry m0 K.kernelPageDirectory 1) = true
  · have hle := hbelow 1 (by omega) hp
    have halign := pageOf_aligned (entry m0 K.kernelPageDirectory 1)
    rw [if_pos hp, if_pos hp]
    exact Mem.load32_congr fun k hk => hframe _ (by omega)
  · rw [if_neg hp, if_neg hp]

variable (K m0 st) in
/-- A new space, while the page for the stack is held. -/
theorem Building.create {stack s d : UInt32} {p1 p2 : Pmm}
    (h : st.pmm.Tracks usable base) (hkernel : ∀ k ∈ usable, K.kernelEnd.toNat ≤ k * 4096)
    (hstack : stack.toNat % 4096 = 0) (hheld : stack.toNat / 4096 ∈ base)
    (hf : Fresh p1 (fun _ => .other) usable base s)
    (hf' : Fresh p2 (Function.update (fun _ => .other) (s.toNat / 4096) (.struct s)) usable
      (insert (s.toNat / 4096) base) d) :
    Building K m0 usable [stack] s d ⟨createdMem packedLayout K m0 s d, p2, st.currentSpace⟩
      (createdRole packedLayout 1024 (fun _ => .other) s d)
      (insert (d.toNat / 4096) (insert (s.toNat / 4096) base)) := by
  have hr := room_packed (K := K) hf hf' (fun _ => by simp [Role.owner]) hkernel
  have hsk := hkernel _ hf.mem
  have hdk := hkernel _ hf'.mem
  have hsa := hf.aligned
  have hda := hf'.aligned
  refine ⟨hr.sound (sound_other h) hf'.tracks, hkernel, ?_, .createdMem hr hsa (by omega) hda
    (by omega), hr.owns, hr.linked, ?_, ?_, ?_, ?_⟩
  · intro k hk
    rw [createdRole_packed hf.aligned, if_neg (by omega), if_neg (by omega)]
  · simpa using hstack
  · simp [pageNumbers]
  · intro k hk
    obtain rfl : k = stack.toNat / 4096 := by simpa [pageNumbers] using hk
    exact Finset.mem_insert_of_mem (Finset.mem_insert_of_mem hheld)
  · intro k hk
    obtain rfl : k = stack.toNat / 4096 := by simpa [pageNumbers] using hk
    have hs : stack.toNat / 4096 ≠ s.toNat / 4096 := fun h0 => hf.free (h0 ▸ hheld)
    have hd : stack.toNat / 4096 ≠ d.toNat / 4096 := fun h0 =>
      hf'.free (h0 ▸ Finset.mem_insert_of_mem hheld)
    rw [createdRole_packed hf.aligned, if_neg hs, if_neg hd]

/-- The mapping of all pages, once they have been taken. -/
theorem Building.mapAll {stack : UInt32} (hks : s ≠ K.kernelSpace) (hlen : pages.length = 16)
    (hb : Building K m0 usable (pages ++ [stack]) s d st role taken) :
    (∃ e, MyOS.mapImagePages packedLayout K s pages 0 st = .error e ∧ (usable \ taken).card = 0) ∨
    ∃ st1 st2, MyOS.mapImagePages packedLayout K s pages 0 st = .ok st1 ∧
      pagingMapPageInSpace packedLayout K st1 s userStackBase stack userPageFlags = (true, st2) ∧
      Prepared K m0 ⟨s, stack, pages, st2⟩ := by
  have himage : ∀ page ∈ pages, page.toNat % 4096 = 0 := fun page hpage =>
    hb.aligned page (mem_append_left _ hpage)
  have halign := hb.aligned stack (mem_append_right _ (mem_singleton_self _))
  rcases hb.mapImagePages hks pages (i := 0) (by omega) himage with
    ⟨e, hfail, hnone, -⟩ | ⟨st1, role1, taken1, hmap, hb1, hown, hat, -⟩
  · exact .inl ⟨e, hfail, hnone⟩
  have hown1 : ownedTable packedLayout st1 s 1 ≠ 0 := hown (.inl fun h0 => by
    rw [h0] at hlen
    exact absurd hlen (by decide))
  have hindex : directoryIndex userStackBase = 1 := by decide
  -- the stack finds the table of the image
  rcases hb1.map hks (v := userStackBase) hindex (by decide) halign with
    ⟨-, -, hnone⟩ | ⟨st2, role2, taken2, hstack, hb2, hown2, hat2, hkeep2⟩
  · rw [hindex] at hnone
    exact absurd hnone hown1
  rw [hindex] at hown2
  refine .inr ⟨st1, st2, hmap, hstack, hlen, hb2.aligned, hb2.nodup, usable, d, role2, taken2, hb2,
    hks, hown2, ?_⟩
  intro j page hj
  dsimp only at hj
  by_cases hlast : j < pages.length
  · rw [List.getElem?_append_left hlast] at hj
    have hold := hat j page hj
    rw [Nat.zero_add] at hold
    refine hkeep2 _ _ ?_ ?_ hold
    · rw [hindex, directoryIndex_imageAddress (by omega)]
    · rw [userStackBase_eq, tableIndex_imageAddress (by omega), tableIndex_imageAddress (by omega)]
      omega
  · -- the stack is the last page
    rw [List.getElem?_append_right (by omega)] at hj
    have hj16 : j = 16 := by
      have hlt := (List.getElem?_eq_some_iff.mp hj).1
      rw [length_singleton] at hlt
      omega
    subst hj16
    rw [hlen, Nat.sub_self] at hj
    cases hj
    rw [← userStackBase_eq]
    exact hat2

/-- **What `run_loaded_image` prepares.** It fails only if fewer than twenty pages are free: one for
the stack, two for the space, sixteen for the image and one for a table. -/
theorem prepareImage_cases (h : st.pmm.Tracks usable base)
    (hkernel : ∀ k ∈ usable, K.kernelEnd.toNat ≤ k * 4096) :
    (∃ e, prepareImage packedLayout K st = .error e ∧ (usable \ base).card < 20) ∨
    ∃ l, prepareImage packedLayout K st = .ok l ∧ Prepared K st.mem l := by
  unfold prepareImage
  rcases h.pmmAllocPage_cases with hnull | ⟨stack, p', heq, hne, halign, husable, hfree, htracks, -⟩
  · have hcard := card_null h (by rw [hnull])
    rw [hnull]
    dsimp only
    rw [if_pos (.inl rfl)]
    exact .inl ⟨_, rfl, by omega⟩
  have hcard := card_take husable hfree
  rw [heq]
  dsimp only
  rcases create_cases packedLayout K { st with pmm := p' } (sound_other htracks) with
    ⟨hnull, hcreate⟩ | ⟨s, p1, halloc, hf, ⟨hnull, -, hcreate⟩ | ⟨d, p2, -, hf', hcreate⟩⟩
  · -- no page for the structure
    have hcard1 := card_null htracks (by rw [hnull])
    rw [hcreate]
    dsimp only
    rw [if_pos (.inr rfl)]
    exact .inl ⟨_, rfl, by omega⟩
  · -- no page for the directory
    have hcard1 := card_take hf.mem hf.free
    have hcard2 := card_null hf.tracks (by rw [hnull])
    rw [hcreate]
    dsimp only
    rw [if_pos (.inr rfl)]
    exact .inl ⟨_, rfl, by omega⟩
  have hcard1 := card_take hf.mem hf.free
  have hcard2 := card_take hf'.mem hf'.free
  have hks := hf.ne_kernelSpace hkernel
  have hb := Building.create K st.mem { st with pmm := p' } htracks hkernel halign
    (Finset.mem_insert_self ..) hf hf'
  rw [hcreate]
  rw [if_neg (by simp [hne, hf.ne])]
  rcases Building.allocImagePages userImagePages [] hb with
    ⟨⟨pages, p3⟩, hfail, hlt⟩ | ⟨pages, p3, taken3, hok, hlen, hb3, hcard3⟩
  · rw [hfail]
    exact .inl ⟨_, rfl, by unfold userImagePages at hlt; omega⟩
  rw [hok]
  dsimp only
  rcases hb3.mapAll hks (hlen.trans rfl) with
    ⟨⟨j, st4⟩, hfail, hnone⟩ | ⟨st4, st5, hmap, hstack, hprepared⟩
  · rw [hfail]
    exact .inl ⟨_, rfl, by unfold userImagePages at hcard3; omega⟩
  rw [hmap]
  dsimp only
  rw [hstack]
  exact .inr ⟨_, rfl, hprepared⟩

namespace Prepared

variable {l : Loaded} (h : Prepared K m0 l)

include h

/-- Outside of the pages of the image and the stack nothing is written. -/
theorem fill_of_not_mem (image : ℕ → UInt8) (size : ℕ) {a : ℕ}
    (ha : a / 4096 ∉ pageNumbers (l.imagePages ++ [l.stackPage])) :
    (l.fill image size).paging.mem a = l.paging.mem a := by
  have haligned := h.aligned
  have himage : a / 4096 ∉ pageNumbers l.imagePages := fun hmem => ha (by
    unfold pageNumbers at hmem ⊢
    rw [map_append]
    exact mem_append_left _ hmem)
  exact (copyFrom_of_not_mem _ _ _ _ himage fun page hpage =>
    haligned page (mem_append_left _ hpage)).trans (clearPages_of_not_mem _ ha haligned)

/-- The byte `o` of the page `j` of the image. -/
theorem fill_byte (image : ℕ → UInt8) (size : ℕ) {j : ℕ} {page : UInt32}
    (hj : l.imagePages[j]? = some page) {o : ℕ} (ho : o < 4096) :
    (l.fill image size).paging.mem (page.toNat + o) =
      if 4096 * j + o < size then image (4096 * j + o) else 0 := by
  have hnodup : (pageNumbers l.imagePages).Nodup := by
    have hall := h.nodup
    unfold pageNumbers at hall ⊢
    rw [map_append] at hall
    exact (nodup_append.mp hall).1
  have hcopy := copyFrom_byte (clearPages l.paging.mem (l.imagePages ++ [l.stackPage])) 0 image size
    hnodup (fun page hpage => h.aligned page (mem_append_left _ hpage)) hj ho
  have hzero : clearPages l.paging.mem (l.imagePages ++ [l.stackPage]) (page.toNat + o) = 0 := by
    have hlt := (List.getElem?_eq_some_iff.mp hj).1
    rw [← List.getElem?_append_left hlt] at hj
    rw [clearPages_eq _ _ 0, copyFrom_byte _ _ _ _ h.nodup h.aligned hj ho, length_append, if_pos]
    omega
  rw [Nat.zero_add, hzero] at hcopy
  exact hcopy

/-- Two images that agree, with zeros behind them, fill the pages alike. -/
theorem fill_congr {image image' : ℕ → UInt8} {size size' : ℕ}
    (heq : ∀ k < 65536, (if k < size then image k else 0) = if k < size' then image' k else 0) :
    l.fill image size = l.fill image' size' := by
  have hmem : (l.fill image size).paging.mem = (l.fill image' size').paging.mem := by
    apply Mem.ext
    funext a
    by_cases himage : a / 4096 ∈ pageNumbers l.imagePages
    · obtain ⟨page, hpage, hnumber⟩ := mem_map.mp himage
      obtain ⟨j, hj⟩ := mem_iff_getElem?.mp hpage
      have hlt := (List.getElem?_eq_some_iff.mp hj).1
      have haligned := h.aligned page (mem_append_left _ hpage)
      have hlen := h.length
      obtain ⟨o, ho, rfl⟩ : ∃ o < 4096, a = page.toNat + o :=
        ⟨a - page.toNat, by omega, by omega⟩
      rw [h.fill_byte image size hj ho, h.fill_byte image' size' hj ho]
      exact heq _ (by omega)
    · have hcopy : ∀ image size, (l.fill image size).paging.mem a =
          clearPages l.paging.mem (l.imagePages ++ [l.stackPage]) a := fun image size =>
        copyFrom_of_not_mem _ _ _ _ himage fun page hpage =>
          h.aligned page (mem_append_left _ hpage)
      rw [hcopy, hcopy]
  unfold Loaded.fill at hmem ⊢
  dsimp only at hmem
  rw [hmem]

/-- What holds of the page tables as long as only the pages of the image and the stack are written.
-/
theorem tables {m : Mem}
    (hm : ∀ a, a / 4096 ∉ pageNumbers (l.imagePages ++ [l.stackPage]) → m a = l.paging.mem a) :
    ∃ d, l.space ≠ 0 ∧ d ≠ 0 ∧ m.load32 (packedLayout.directoryAt l.space) = d ∧ Shares K m0 d m ∧
      ∀ j page, (l.imagePages ++ [l.stackPage])[j]? = some page →
        PageAt m d (imageAddress j) page := by
  obtain ⟨usable, d, role, taken, hb, -, hown, hat⟩ := h.mapped
  have hsame : ∀ a, role (a / 4096) ≠ .other → m a = l.paging.mem a :=
    fun a ha => hm a fun hmem => ha (hb.other _ hmem)
  have hpage : ∀ j page, (l.imagePages ++ [l.stackPage])[j]? = some page →
      PageAt m d (imageAddress j) page := fun j page hj => by
    have hlt := (List.getElem?_eq_some_iff.mp hj).1
    rw [length_append, h.length, length_singleton] at hlt
    have hindex := directoryIndex_imageAddress (show j ≤ 16 by omega)
    exact hb.pageAt_congr hsame (by omega) (hindex ▸ hown) (hat j page hj)
  refine ⟨d, hb.owns.space_ne, hb.owns.dir_ne, ?_, ⟨?_, ?_, ?_⟩, hpage⟩
  · rw [← hb.owns.dir_eq]
    have hcell := hb.owns.cell_role 0 (by omega)
    have hal := hb.owns.space_aligned
    refine Mem.load32_congr fun k hk => hsame _ ?_
    have hpage : (packedLayout.directoryAt l.space + k) / 4096 =
        (packedLayout.base l.space + 4 * 0) / 4096 := by
      change (l.space.toNat + k) / 4096 = (l.space.toNat + 4 * 0) / 4096
      omega
    rw [hpage, hcell]
    simp
  · intro a ha
    rw [hm a fun hmem => ?_]
    · exact hb.shares.kernel a ha
    · have hle := hb.above _ (hb.sound.tracks.subset (hb.held _ hmem))
      omega
  · intro i hi hne
    rw [← hb.shares.directory i hi hne]
    exact hb.entry_congr hsame hi
  · intro hbelow j hj hle
    rw [← hb.shares.table hbelow j hj hle]
    exact hb.lookup_congr hsame (by omega) hj hown

/-- The page tables are the same after the pages have been filled. -/
theorem pageAt_fill (image : ℕ → UInt8) (size : ℕ) : ∃ d,
    pageDirectory packedLayout (l.fill image size).paging l.space = d ∧
    ∀ j page, (l.imagePages ++ [l.stackPage])[j]? = some page →
      PageAt (l.fill image size).paging.mem d (imageAddress j) page := by
  obtain ⟨d, -, -, hd, -, hat⟩ := h.tables fun a ha => h.fill_of_not_mem image size ha
  exact ⟨d, hd, hat⟩

/-- The process gets its own space. -/
theorem switch_fill (image : ℕ → UInt8) (size : ℕ) :
    pagingSwitchAddressSpace packedLayout (l.fill image size).paging l.space =
      { (l.fill image size).paging with currentSpace := l.space } := by
  obtain ⟨d, hspace, hd, hdir, -, -⟩ := h.tables fun a => h.fill_of_not_mem image size
  exact if_neg (not_or.mpr ⟨hspace, fun h0 => hd (hdir ▸ h0)⟩)

/-- **What the program reads**: the image from `USER_PROGRAM_BASE` on, followed by zeros. -/
theorem byte_fill (image : ℕ → UInt8) (size : ℕ) {k : ℕ} (hk : k < 65536) :
    userByte (l.fill image size).paging l.space (userProgramBase + UInt32.ofNat k) =
      some (if k < size then image k else 0) := by
  obtain ⟨d, hd, hat⟩ := h.pageAt_fill image size
  have hlen := h.length
  obtain ⟨page, hj⟩ : ∃ page, l.imagePages[k / 4096]? = some page :=
    ⟨_, List.getElem?_eq_getElem (by omega)⟩
  have haligned := h.aligned page (mem_append_left _ (mem_of_getElem? hj))
  have hv : (userProgramBase + UInt32.ofNat k).toNat = 0x400000 + k := by
    have hbase : userProgramBase.toNat = 0x400000 := rfl
    rw [Word.toNat_add_ofNat (by omega), hbase]
  have hpage := hat (k / 4096) page (by rw [List.getElem?_append_left (by omega)]; exact hj)
  -- the address has the indices of its page
  have hdi : directoryIndex (userProgramBase + UInt32.ofNat k) =
      directoryIndex (imageAddress (k / 4096)) := by
    rw [directoryIndex_imageAddress (by omega), directoryIndex_eq, hv]
    omega
  have hti : tableIndex (userProgramBase + UInt32.ofNat k) =
      tableIndex (imageAddress (k / 4096)) := by
    rw [tableIndex_imageAddress (by omega), tableIndex_eq, hv]
    omega
  rw [(hpage.of_index hdi hti).userByte hd haligned, hv, show (0x400000 + k) % 4096 =
    k % 4096 by omega,
    h.fill_byte image size hj (Nat.mod_lt _ (by omega)), Nat.div_add_mod]

end Prepared

end Building

end MyOS
