import MyOS.Paging.Footprint
import MyOS.User.Program

/-!
# The pages of a program

`run_loaded_image` takes pages one by one and gives them back on every way out, so that afterwards
the same pages are taken as before (`run_loaded_image_pages`). The invariant of its steps is
`Holding`: the pages that are taken are those of the new address space, the pages that were taken
before (`base`), and the list of `pages` that the function has obtained itself. The structure of the
space is a record here (`fieldLayout`), so that a write to the memory does not change what the space
owns (`Holding.write`); the program may write what it likes while it runs.
-/

namespace MyOS

open Paging List

/-! ### What a run holds -/

/-- The numbers of pages. -/
def pageNumbers (pages : List UInt32) : List ℕ := pages.map fun page => page.toNat / 4096

/-- `pmm_alloc_page` has returned the `pages`, in addition to those in `base`. -/
structure Extra (base : Finset ℕ) (pages : List UInt32) : Prop where
  aligned : ∀ page ∈ pages, page.toNat % 4096 = 0
  nodup : (pageNumbers pages).Nodup
  fresh : ∀ k ∈ pageNumbers pages, k ∉ base

/-- The taken pages are those of the space `s`, whose structure is a record, the pages in `base` and
the `pages`. -/
structure Holding (usable base : Finset ℕ) (pages : List UInt32) (s d : UInt32) (st : Paging)
    (role : ℕ → Role) (taken : Finset ℕ) : Prop where
  sound : Sound st.pmm role usable taken
  owns : Owns fieldLayout st.mem role s d
  spill : Spill fieldLayout st.mem role s d
  roles : ∀ k, role k = .other ∨ (role k).owner = some s
  extra : Extra base pages
  outside : (taken.filter fun k => (role k).owner ≠ some s) = base ∪ (pageNumbers pages).toFinset

section Pages

variable {K : KernelStatics} {usable base taken : Finset ℕ} {pages pages' rest : List UInt32}
  {page s d : UInt32} {st st' : Paging} {role : ℕ → Role}

theorem Extra.cons (h : Extra base pages) (halign : page.toNat % 4096 = 0)
    (hbase : page.toNat / 4096 ∉ base) (hpages : page.toNat / 4096 ∉ pageNumbers pages) :
    Extra base (page :: pages) := by
  refine ⟨forall_mem_cons.mpr ⟨halign, h.aligned⟩, nodup_cons.mpr ⟨hpages, h.nodup⟩, ?_⟩
  exact forall_mem_cons.mpr ⟨hbase, h.fresh⟩

theorem Extra.tail (h : Extra base (page :: pages)) : Extra base pages :=
  ⟨(forall_mem_cons.mp h.aligned).2, (nodup_cons.mp h.nodup).2,
    (forall_mem_cons.mp h.fresh).2⟩

/-- The fields are not in the memory. -/
theorem fieldLayout_le (s : UInt32) : 2 ^ 32 ≤ fieldLayout.base s := Nat.le_add_right ..

namespace Holding

section Step

variable (h : Holding usable base pages s d st role taken)
include h

/-- The memory does not matter. -/
theorem write (hpmm : st'.pmm.Tracks usable taken) (hm : ∀ a, 2 ^ 32 ≤ a → st'.mem a = st.mem a) :
    Holding usable base pages s d st' role taken := by
  have hle := fieldLayout_le s
  have hspill : st'.mem.load32 (fieldLayout.ownedAt s 1023)
      = st.mem.load32 (fieldLayout.ownedAt s 1023) :=
    Mem.load32_congr fun k hk => hm _ (by unfold SpaceLayout.ownedAt; omega)
  exact
    { h with
      sound := { h.sound with tracks := hpmm }
      owns := h.owns.congr_cells (fun j hj => Mem.load32_congr fun k hk => hm _ (by omega))
        fun _ _ => rfl
      spill := ⟨h.spill.place, by rw [hspill]; exact h.spill.value⟩ }

theorem perm (hp : pages.Perm pages') :
    Holding usable base pages' s d st role taken := by
  have hnum : (pageNumbers pages).Perm (pageNumbers pages') := hp.map _
  exact
    { h with
      extra := ⟨fun page hpage => h.extra.aligned page (hp.mem_iff.mpr hpage),
        hnum.nodup_iff.mp h.extra.nodup, fun k hk => h.extra.fresh k (hnum.mem_iff.mpr hk)⟩
      outside := by rw [h.outside, toFinset_eq_of_perm _ _ hnum] }

/-- `pmm_alloc_page` gives one more page. -/
theorem alloc :
    st.pmm.pmmAllocPage = (0, st.pmm) ∨
    ∃ page p', st.pmm.pmmAllocPage = (page, p') ∧ page ≠ 0 ∧
      Holding usable base (page :: pages) s d { st with pmm := p' } role
        (insert (page.toNat / 4096) taken) := by
  rcases h.sound.pmmAllocPage_cases with hnull | ⟨page, p', heq, hf⟩
  · exact .inl hnull
  have hout : page.toNat / 4096 ∉ base ∪ (pageNumbers pages).toFinset := fun hmem => by
    rw [← h.outside, Finset.mem_filter] at hmem
    exact hf.free hmem.1
  rw [Finset.mem_union, mem_toFinset, not_or] at hout
  have hsound := h.sound.take hf .other
  rw [Function.update_eq_self_iff.mpr hf.other.symm] at hsound
  refine .inr ⟨page, p', heq, hf.ne,
    { h with
      sound := hsound
      extra := h.extra.cons hf.aligned hout.1 hout.2
      outside := ?_ }⟩
  rw [Finset.filter_insert, if_pos (by rw [hf.other]; simp [Role.owner]), h.outside,
    ← Finset.union_insert]
  exact congrArg (base ∪ ·) toFinset_cons.symm

/-- `paging_map_page_in_space` on the space: its pages may become more, the others stay. -/
theorem map (hl : Linked fieldLayout st.mem s d)
    (hks : s ≠ K.kernelSpace) {v : UInt32} (hv : directoryIndex v < 1023) (pa flags : UInt32) :
    pagingMapPageInSpace fieldLayout K st s v pa flags = (false, st) ∨
    ∃ st' role' taken', pagingMapPageInSpace fieldLayout K st s v pa flags = (true, st') ∧
      Holding usable base pages s d st' role' taken' ∧ Linked fieldLayout st'.mem s d := by
  rcases map_cases (K := K) h.sound h.owns hl hks v pa flags hv with
    hfail | ⟨t, e, st', role', taken', heq, he, -, -⟩
  · exact .inl hfail
  refine .inr ⟨st', role', taken', heq,
    ⟨he.sound, he.owns, he.spill h.spill, fun k => ?_, h.extra, ?_⟩, he.linked⟩
  · by_cases hk : role' k = role k
    · rw [hk]
      exact h.roles k
    · exact .inr (he.grown.gains k hk)
  · rw [← h.outside]
    ext k
    rw [Finset.mem_filter, Finset.mem_filter]
    -- a page outside of the space has the same role as before
    have hsame : (role' k).owner ≠ some s → role' k = role k := fun hk => by
      by_contra hne
      exact hk (he.grown.gains k hne)
    constructor
    · rintro ⟨hk, hown⟩
      have hiff := he.grown.taken_iff k (he.sound.lt hk)
      exact ⟨(hiff.mp hk).resolve_right (not_not_intro (hsame hown)), hsame hown ▸ hown⟩
    · rintro ⟨hk, hown⟩
      have hold : role' k = role k := by
        by_contra hne
        exact he.grown.fresh k (h.sound.lt hk) hne hk
      exact ⟨(he.grown.taken_iff k (h.sound.lt hk)).mpr (.inl hk), hold ▸ hown⟩

/-- `paging_unmap_page_in_space` writes to the memory only. -/
theorem unmap (space v : UInt32) :
    Holding usable base pages s d (pagingUnmapPageInSpace fieldLayout st space v) role taken := by
  unfold pagingUnmapPageInSpace
  by_cases hs : space = 0 ∨ pageDirectory fieldLayout st space = 0
  · rwa [if_pos hs]
  · rw [if_neg hs]
    generalize entry st.mem (pageDirectory fieldLayout st space) (directoryIndex v) = e
    by_cases hp : isPresent e = false
    · rwa [if_pos hp]
    · rw [if_neg hp]
      refine h.write h.sound.tracks fun a ha =>
        setEntry_of_page (pageOf_aligned e) (tableIndex_lt v) ?_
      have := (pageOf e).toNat_lt
      omega

theorem unmapImagePages (space : UInt32) (n : ℕ) :
    Holding usable base pages s d (unmapImagePages fieldLayout space st n) role taken := by
  unfold MyOS.unmapImagePages
  induction n with
  | zero => exact h
  | succ n ih =>
    rw [range_succ, foldl_append]
    exact ih.unmap space _

/-- `paging_destroy_address_space` leaves the pages outside of the space. -/
theorem destroy (hks : s ≠ K.kernelSpace) :
    (pagingDestroyAddressSpace fieldLayout K st s).pmm.Tracks usable
      (base ∪ (pageNumbers pages).toFinset) := by
  rw [← h.outside]
  exact (destroy_spec h.sound h.owns h.spill hks).1.tracks

/-- The address space is only selected. -/
theorem switch (space : UInt32) :
    Holding usable base pages s d (pagingSwitchAddressSpace fieldLayout st space) role taken := by
  unfold pagingSwitchAddressSpace
  split_ifs
  · exact h
  · exact h.write h.sound.tracks fun _ _ => rfl

end Step

/-- `pmm_free_page` takes it back. -/
theorem free (h : Holding usable base (page :: pages) s d st role taken) :
    Holding usable base pages s d (freePage st page) role (taken.erase (page.toNat / 4096)) := by
  have hmem : page.toNat / 4096 ∈ taken.filter fun k => (role k).owner ≠ some s := by
    rw [h.outside]
    simp [pageNumbers]
  rw [Finset.mem_filter] at hmem
  have hother := (h.roles (page.toNat / 4096)).resolve_right hmem.2
  have hbase : page.toNat / 4096 ∉ base := (forall_mem_cons.mp h.extra.fresh).1
  have hpages : page.toNat / 4096 ∉ pageNumbers pages := (nodup_cons.mp h.extra.nodup).1
  have htracks := h.sound.tracks.pmmFreePage (h.extra.aligned page mem_cons_self) hmem.1
  refine { h with sound := ⟨htracks, ?_, ?_⟩, extra := h.extra.tail, outside := ?_ }
  · intro k hk hk'
    by_cases heq : k = page.toNat / 4096
    · rw [heq]
      exact hother
    · exact h.sound.free_other k hk fun hmem => hk' (Finset.mem_erase.mpr ⟨heq, hmem⟩)
  · intro k hk hk'
    refine Finset.mem_erase.mpr ⟨?_, h.sound.owner_taken k hk hk'⟩
    rintro rfl
    exact hk' (by rw [hother]; rfl)
  · have hcons : (pageNumbers (page :: pages)).toFinset
        = insert (page.toNat / 4096) (pageNumbers pages).toFinset := toFinset_cons
    rw [Finset.filter_erase, h.outside, hcons, Finset.union_insert, Finset.erase_insert]
    simp [hbase, hpages]

theorem freeImagePages (h : Holding usable base (pages ++ rest) s d st role taken) :
    ∃ taken', Holding usable base rest s d (freeImagePages st pages) role taken' := by
  induction pages generalizing st taken with
  | nil => exact ⟨taken, h⟩
  | cons page pages ih => exact ih h.free

theorem dropImagePages (rest : List UInt32)
    (h : Holding usable base (pages ++ rest) s d st role taken) (space : UInt32) :
    ∃ taken', Holding usable base rest s d
      (dropImagePages fieldLayout space st pages) role taken' := by
  unfold MyOS.dropImagePages
  generalize 0 = i
  induction pages generalizing st taken i with
  | nil => exact ⟨taken, h⟩
  | cons page pages ih => exact ih (h.unmap space (imageAddress i)).free (i + 1)

/-- The space is destroyed and the last page is freed. -/
theorem destroy_free (h : Holding usable base [page] s d st role taken) (hks : s ≠ K.kernelSpace) :
    (freePage (pagingDestroyAddressSpace fieldLayout K st s) page).pmm.Tracks usable base := by
  have hbase := h.extra.fresh _ mem_cons_self
  have halign := h.extra.aligned _ mem_cons_self
  have hfree := (h.destroy hks).pmmFreePage halign (by simp [pageNumbers])
  rwa [show base ∪ (pageNumbers [page]).toFinset = insert (page.toNat / 4096) base by
    rw [Finset.union_comm]; rfl, Finset.erase_insert hbase] at hfree

end Holding

/-! ### Loading an image -/

/-- The room of a record: its fields are outside of the memory. -/
theorem room_fields {p1 p2 : Pmm} (hf : Fresh p1 (fun _ => .other) usable taken s)
    (hf' : Fresh p2 (Function.update (fun _ => .other) (s.toNat / 4096) (.struct s)) usable
      (insert (s.toNat / 4096) taken) d) :
    Room fieldLayout K 1025 (fun _ => .other) s d := by
  have hle := fieldLayout_le s
  have hd := d.toNat_lt
  have hk := K.kernelEnd.toNat_lt
  exact
    { space_ne := hf.ne
      space_aligned := hf.aligned
      space_other := rfl
      dir_ne := hf'.ne
      dir_aligned := hf'.aligned
      dir_other := rfl
      dir_ne_space := fun h0 => hf'.free (by rw [h0]; simp)
      le := by omega
      cell_other := fun _ _ => rfl
      cell_ne := fun j _ => by omega
      cell_page := fun j _ hj => by omega
      unowned := fun _ => by simp [Role.owner]
      kernel := by omega }

/-- A new page does not lie in the kernel. -/
theorem Fresh.ne_kernelSpace {p : Pmm} (hf : Fresh p role usable taken s)
    (hkernel : ∀ k ∈ usable, K.kernelEnd.toNat ≤ k * 4096) : s ≠ K.kernelSpace := by
  rintro rfl
  have hin := K.inside (K.kernelSpace.toNat, 4100) (by simp)
  have hle := hkernel _ hf.mem
  omega

/-- A new space: its pages are the two that `paging_create_address_space` has obtained. -/
theorem Holding.create (st : Paging) (pages : List UInt32)
    (h : st.pmm.Tracks usable (base ∪ (pageNumbers pages).toFinset))
    (hextra : Extra base pages) (hkernel : ∀ k ∈ usable, K.kernelEnd.toNat ≤ k * 4096) :
    (∃ st', pagingCreateAddressSpace fieldLayout K st = (0, st') ∧
      st'.pmm.Tracks usable (base ∪ (pageNumbers pages).toFinset)) ∨
    ∃ s d st' role taken, pagingCreateAddressSpace fieldLayout K st = (s, st') ∧ s ≠ 0 ∧
      s ≠ K.kernelSpace ∧ Holding usable base pages s d st' role taken ∧
      Linked fieldLayout st'.mem s d := by
  rcases create_cases fieldLayout K st (sound_other h) with
    ⟨-, heq⟩ | ⟨s, p1, -, hf, ⟨-, htracks, heq⟩ | ⟨d, p2, -, hf', heq⟩⟩
  · exact .inl ⟨st, heq, h⟩
  · exact .inl ⟨_, heq, htracks⟩
  have hr : Room fieldLayout K 1025 (fun _ => .other) s d := room_fields hf hf'
  have hsound := hr.sound (sound_other h) hf'.tracks
  have hks := hf.ne_kernelSpace hkernel
  refine .inr ⟨s, d, _, _, _, heq, hf.ne, hks,
    ⟨hsound, hr.owns, hr.spill (.inr (by omega)), fun k => ?_, hextra, ?_⟩, hr.linked⟩
  · rcases hr.createdRole_cases k with hk | ⟨-, hk | ⟨hk, -⟩⟩
    · exact .inl hk
    · exact .inr (by rw [hk]; rfl)
    · exact .inr (by rw [hk]; rfl)
  · ext k
    have hdfree : d.toNat / 4096 ∉ base ∪ (pageNumbers pages).toFinset := fun hk =>
      hf'.free (Finset.mem_insert_of_mem hk)
    rw [Finset.mem_filter, Finset.mem_insert, Finset.mem_insert]
    constructor
    · rintro ⟨hk, hown⟩
      rw [hr.createdRole_of_lt (hsound.lt (by simpa using hk))] at hown
      split_ifs at hown with hs hd
      · exact absurd rfl hown
      · exact absurd rfl hown
      · exact (hk.resolve_left hd).resolve_left hs
    · intro hk
      have hlt := hsound.lt (Finset.mem_insert_of_mem (Finset.mem_insert_of_mem hk))
      have hs : k ≠ s.toNat / 4096 := fun h0 => hf.free (h0 ▸ hk)
      have hd : k ≠ d.toNat / 4096 := fun h0 => hdfree (h0 ▸ hk)
      refine ⟨.inr (.inr hk), ?_⟩
      rw [hr.createdRole_of_lt hlt, if_neg hs, if_neg hd]
      simp [Role.owner]

/-- The loop that allocates the pages of the image: it has them all, or those before the failure. -/
theorem Holding.allocImagePages (n : ℕ) (pages : List UInt32)
    (h : Holding usable base (pages ++ rest) s d st role taken) :
    ∃ pages' p' taken', Holding usable base (pages' ++ rest) s d { st with pmm := p' } role taken' ∧
      (allocImagePages n pages st.pmm = .error (pages', p') ∨
        allocImagePages n pages st.pmm = .ok (pages', p') ∧ pages'.length = pages.length + n) := by
  induction n generalizing pages st taken with
  | zero => exact ⟨pages, st.pmm, taken, h, .inr ⟨rfl, rfl⟩⟩
  | succ n ih =>
    unfold MyOS.allocImagePages
    rcases h.alloc with hnull | ⟨page, p', heq, hne, h'⟩
    · rw [hnull]
      exact ⟨pages, st.pmm, taken, h, .inl (if_pos rfl)⟩
    · rw [heq]
      dsimp only
      rw [if_neg hne]
      have hperm : (page :: (pages ++ rest)).Perm ((pages ++ [page]) ++ rest) := by
        rw [append_assoc]
        exact perm_middle.symm
      obtain ⟨pages', p'', taken', hh, hres⟩ := ih _ (h'.perm hperm)
      refine ⟨pages', p'', taken', hh, hres.imp_right fun hok => ⟨hok.1, ?_⟩⟩
      rw [hok.2, length_append, length_singleton]
      omega

theorem imageAddress_toNat {i : ℕ} (hi : i ≤ 16) :
    (imageAddress i).toNat = 0x400000 + 4096 * i := by
  have hbase : userProgramBase.toNat = 0x400000 := rfl
  rw [imageAddress, Word.toNat_add_ofNat (by omega), hbase]

/-- The pages of the image and of the stack are below the last 4 MiB. -/
theorem directoryIndex_imageAddress {i : ℕ} (hi : i ≤ 16) :
    directoryIndex (imageAddress i) = 1 := by
  rw [directoryIndex_eq, imageAddress_toNat hi]
  omega

/-- The loop that maps the pages of the image. -/
theorem Holding.mapImagePages (hks : s ≠ K.kernelSpace) (image : List UInt32) {i : ℕ}
    (hi : i + image.length ≤ 16) (h : Holding usable base pages s d st role taken)
    (hl : Linked fieldLayout st.mem s d) :
    ∃ st' role' taken', Holding usable base pages s d st' role' taken' ∧
      ((∃ j, mapImagePages fieldLayout K s image i st = .error (j, st')) ∨
        mapImagePages fieldLayout K s image i st = .ok st' ∧ Linked fieldLayout st'.mem s d) := by
  induction image generalizing i st role taken with
  | nil => exact ⟨st, role, taken, h, .inr ⟨rfl, hl⟩⟩
  | cons page image ih =>
    rw [length_cons] at hi
    have hv : directoryIndex (imageAddress i) < 1023 := by
      rw [directoryIndex_imageAddress (by omega)]
      omega
    unfold MyOS.mapImagePages
    rcases h.map hl hks hv page userPageFlags with hfail | ⟨st', role', taken', heq, h', hl'⟩
    · rw [hfail]
      exact ⟨st, role, taken, h, .inl ⟨i, rfl⟩⟩
    · rw [heq]
      exact ih (by omega) h' hl'

/-- The loops that write to the pages leave the others as they are. -/
theorem copyFrom_of_not_mem (m : Mem) (n : ℕ) (image : ℕ → UInt8) (size : ℕ) {a : ℕ}
    (ha : a / 4096 ∉ pageNumbers pages) (hpages : ∀ page ∈ pages, page.toNat % 4096 = 0) :
    copyFrom m pages n image size a = m a := by
  induction pages generalizing m n with
  | nil => rfl
  | cons page pages ih =>
    rw [forall_mem_cons] at hpages
    obtain ⟨hne, hnot⟩ : a / 4096 ≠ page.toNat / 4096 ∧ a / 4096 ∉ pageNumbers pages :=
      not_or.mp fun h => ha (mem_cons.mpr h)
    refine (ih _ _ hnot hpages.2).trans (Mem.storeBytes_of_not_mem _ _ ?_)
    have := hpages.1
    dsimp only
    omega

/-- Clearing the pages is copying zeros into them. -/
theorem clearPages_eq (m : Mem) (pages : List UInt32) (n : ℕ) :
    clearPages m pages = copyFrom m pages n (fun _ => 0) (4096 * (n + pages.length)) := by
  unfold clearPages copyFrom
  induction pages generalizing m n with
  | nil => rfl
  | cons page pages ih =>
    have hsize : n + (pages.length + 1) = n + 1 + pages.length := by omega
    have hmin : min 4096 (4096 * (n + 1 + pages.length) - 4096 * n) = 4096 := by omega
    rw [zipIdx_cons, foldl_cons, foldl_cons, length_cons, ih _ (n + 1), hsize, hmin]

theorem clearPages_of_not_mem (m : Mem) {a : ℕ} (ha : a / 4096 ∉ pageNumbers pages)
    (hpages : ∀ page ∈ pages, page.toNat % 4096 = 0) : clearPages m pages a = m a := by
  rw [clearPages_eq m pages 0]
  exact copyFrom_of_not_mem _ _ _ _ ha hpages

theorem notMem_pageNumbers {a : ℕ} (ha : 2 ^ 32 ≤ a) : a / 4096 ∉ pageNumbers pages := by
  intro hmem
  obtain ⟨page, -, hpage⟩ := mem_map.mp hmem
  have := page.toNat_lt
  omega

/-- The page for the stack. -/
theorem Extra.stack {p' : Pmm} (halign : page.toNat % 4096 = 0) (hfree : page.toNat / 4096 ∉ base)
    (htracks : p'.Tracks usable (insert (page.toNat / 4096) base)) :
    Extra base [page] ∧ p'.Tracks usable (base ∪ (pageNumbers [page]).toFinset) := by
  refine ⟨Extra.cons ⟨by simp, by simp [pageNumbers], by simp [pageNumbers]⟩ halign hfree
    (by simp [pageNumbers]), ?_⟩
  rw [Finset.union_comm]
  exact htracks

/-- **What `run_loaded_image` holds** before it allocates the process: on failure what it held
before, and otherwise also the pages of the space, of the image and of the stack. -/
theorem loadImage_cases (h : st.pmm.Tracks usable base)
    (hkernel : ∀ k ∈ usable, K.kernelEnd.toNat ≤ k * 4096) (entry : UInt32) (image : ℕ → UInt8)
    (imageSize : UInt32) :
    (∃ code st', loadImage fieldLayout K st entry image imageSize = .error (code, st') ∧
      st'.pmm.Tracks usable base) ∨
    ∃ loaded d role taken, loadImage fieldLayout K st entry image imageSize = .ok loaded ∧
      loaded.space ≠ K.kernelSpace ∧
      Holding usable base (loaded.imagePages ++ [loaded.stackPage]) loaded.space d loaded.paging
        role taken := by
  unfold loadImage prepareImage
  by_cases hcheck : entry < userProgramBase ∨ entry ≥ userProgramBase + userImageSize ∨
      imageSize > userImageSize
  · rw [if_pos hcheck]
    exact .inl ⟨_, _, rfl, h⟩
  rw [if_neg hcheck]
  rcases h.pmmAllocPage_cases with hnull | ⟨stack, p', heq, hne, halign, -, hfree, htracks, -⟩
  · -- no page for the stack
    rw [hnull]
    dsimp only
    have hnone : Extra base [] := ⟨by simp, by simp [pageNumbers], by simp [pageNumbers]⟩
    rcases Holding.create (K := K) { st with pmm := st.pmm } []
      (by simpa [pageNumbers] using h) hnone hkernel with
      ⟨st', hcreate, htracks⟩ | ⟨s, d, st', role, taken, hcreate, hs, hks, hh, -⟩
    · rw [hcreate]
      refine .inl ⟨-22, st', by simp [Except.map], ?_⟩
      simpa [pageNumbers] using htracks
    · rw [hcreate]
      refine .inl ⟨-22, pagingDestroyAddressSpace fieldLayout K st' s, by simp [Except.map, hs],
        ?_⟩
      simpa [pageNumbers] using hh.destroy hks
  obtain ⟨hextra, htracks⟩ := Extra.stack halign hfree htracks
  rw [heq]
  dsimp only
  rcases Holding.create (K := K) { st with pmm := p' } [stack] htracks hextra hkernel with
    ⟨st', hnull, htracks'⟩ | ⟨s, d, st1, role, taken, hcreate, hs, hks, hh, hl⟩
  · -- no page for the space
    rw [hnull]
    refine .inl ⟨-22, freePage st' stack, by simp [Except.map, hne], ?_⟩
    have := htracks'.pmmFreePage halign (by simp [pageNumbers])
    rwa [show base ∪ (pageNumbers [stack]).toFinset = insert (stack.toNat / 4096) base by
      rw [Finset.union_comm]; rfl, Finset.erase_insert hfree] at this
  rw [hcreate]
  rw [if_neg (by simp [hne, hs])]
  obtain ⟨pages, p2, taken2, hh2, halloc⟩ := Holding.allocImagePages userImagePages [] hh
  rcases halloc with hfail | ⟨hok, hlen⟩
  · -- a page for the image is missing
    rw [hfail]
    obtain ⟨taken3, hh3⟩ := hh2.freeImagePages
    exact .inl ⟨_, _, rfl, hh3.destroy_free hks⟩
  rw [hok]
  dsimp only
  obtain ⟨st3, role3, taken3, hh3, hmap⟩ := hh2.mapImagePages hks pages (i := 0)
    (by rw [hlen]; exact le_rfl) hl
  rcases hmap with ⟨j, hfail⟩ | ⟨hok, hl3⟩
  · -- a table for the image is missing
    rw [hfail]
    obtain ⟨taken4, hh4⟩ := (hh3.unmapImagePages s j).freeImagePages
    exact .inl ⟨_, _, rfl, hh4.destroy_free hks⟩
  rw [hok]
  dsimp only
  have hv : directoryIndex userStackBase < 1023 := by decide
  rcases hh3.map hl3 hks hv stack userPageFlags with hfail | ⟨st4, role4, taken4, hstack, hh4, hl4⟩
  · -- a table for the stack is missing
    rw [hfail]
    obtain ⟨taken5, hh5⟩ := hh3.dropImagePages _ s
    exact .inl ⟨_, _, rfl, hh5.destroy_free hks⟩
  rw [hstack]
  have haligned := hh4.extra.aligned
  refine .inr ⟨_, d, role4, taken4, rfl, hks, hh4.write hh4.sound.tracks fun a ha => ?_⟩
  exact (copyFrom_of_not_mem _ 0 _ _ (notMem_pageNumbers ha) fun page hpage =>
    haligned page (mem_append_left _ hpage)).trans
      (clearPages_of_not_mem _ (notMem_pageNumbers ha) haligned)

/-! ### Running it -/

/-- `usermode_enter` makes no net allocation of pages, and it does not reach the fields of a space.
-/
structure KeepsPages (usermodeEnter : UInt32 → UInt32 → UserState → ℤ × UserState) : Prop where
  tracks : ∀ entry stack st usable taken, st.paging.pmm.Tracks usable taken →
    (usermodeEnter entry stack st).2.paging.pmm.Tracks usable taken
  fields : ∀ entry stack st a, 2 ^ 32 ≤ a →
    (usermodeEnter entry stack st).2.paging.mem a = st.paging.mem a

/-- The same pages are in use, and the counter agrees. -/
def SamePages (p p' : Pmm) : Prop :=
  (∀ k < 32768, p'.bitmapTest k = p.bitmapTest k) ∧ p'.usedPagesCount = p.usedPagesCount

theorem samePages_of_tracks {p p' : Pmm} (h : p.Tracks usable taken) (h' : p'.Tracks usable taken) :
    SamePages p p' := by
  refine ⟨fun k hk => ?_, UInt32.toNat_inj.mp (h'.used.trans h.used.symm)⟩
  have hbit := (h'.bit k hk).trans (h.bit k hk).symm
  cases hb : p.bitmapTest k
  · exact hbit.mpr hb
  · rw [← Bool.not_eq_false, hbit, hb]
    simp

/-- **A run takes no page and gives none away**: on every way out of `run_loaded_image` the pages in
use are those that were in use before. -/
theorem run_loaded_image_pages (K : KernelStatics)
    (usermodeEnter : UInt32 → UInt32 → UserState → ℤ × UserState) (he : KeepsPages usermodeEnter)
    (st : UserState) (hp : Managed K st.paging.pmm) (name : List UInt8) (entry : UInt32)
    (image : ℕ → UInt8) (imageSize : UInt32) :
    SamePages st.paging.pmm
      (runLoadedImage fieldLayout K usermodeEnter st name entry image imageSize).2.paging.pmm := by
  obtain ⟨hstart, usable, base, h⟩ := hp
  refine samePages_of_tracks h ?_
  unfold runLoadedImage
  rcases loadImage_cases h (kernel_below h hstart) entry image imageSize with
    ⟨code, st', heq, htracks⟩ | ⟨loaded, d, role, taken, heq, hks, hh⟩
  · rw [heq]
    exact htracks
  rw [heq]
  cases st.processes.allocateProcess name entry with
  | none =>
    -- no entry is left in the process table
    obtain ⟨taken', hh'⟩ := (hh.unmap loaded.space userStackBase).dropImagePages _ loaded.space
    exact hh'.destroy_free hks
  | some started =>
    obtain ⟨i, processes⟩ := started
    dsimp only
    have hswitch := hh.switch loaded.space
    generalize processes.update i (fun e => { e with addressSpace := loaded.space }) = processes'
    -- the program has run, and the kernel's space is selected again
    have hran := (hswitch.write (he.tracks entry (userStackBase + pageSize)
      ⟨pagingSwitchAddressSpace fieldLayout loaded.paging loaded.space, processes'⟩ _ _
      hswitch.sound.tracks) (he.fields _ _ _)).switch K.kernelSpace
    have hstack := ((hran.unmap loaded.space userStackBase).perm perm_append_comm).free
    obtain ⟨taken', hh'⟩ := Holding.dropImagePages []
      (by rwa [append_nil]) loaded.space
    have hdone := hh'.destroy hks
    rwa [show pageNumbers [] = [] from rfl, toFinset_nil, Finset.union_empty] at hdone

/-- Thirty-two pages behind the small kernel. -/
def manyPages : Pmm :=
  (⟨fun _ => 0, 0, 0, 0, 0⟩ : Pmm).pmmInitialize Pmm.smallImage.kernelEnd [⟨0x100000, 0x20000, 1⟩]

/-- The machine with these pages, and no process. -/
def manyPagesState : UserState := ⟨⟨⟨fun _ => 0⟩, manyPages, 0⟩, Processes.initial⟩

theorem managed_manyPages : Managed smallKernel manyPagesState.paging.pmm := by
  obtain ⟨usable, h, hs⟩ := Pmm.pmmInitialize_tracks ⟨fun _ => 0, 0, 0, 0, 0⟩ Pmm.smallImage
    [⟨0x100000, 0x20000, 1⟩]
  unfold manyPagesState manyPages
  dsimp only
  exact managed_alloc hs h .init

/-- A program that ends at once. -/
def endAtOnce (_ _ : UInt32) (st : UserState) : ℤ × UserState := (42, st)

theorem run_loaded_image_pages_manyPages :
    KeepsPages endAtOnce ∧ Managed smallKernel manyPagesState.paging.pmm ∧
    SamePages manyPagesState.paging.pmm (runLoadedImage fieldLayout smallKernel endAtOnce
      manyPagesState [] 0x00400000 (fun _ => 0x90) 100).2.paging.pmm := by
  have he : KeepsPages endAtOnce := ⟨fun _ _ _ _ _ h => h, fun _ _ _ _ _ => rfl⟩
  exact ⟨he, managed_manyPages, run_loaded_image_pages smallKernel endAtOnce he manyPagesState
    managed_manyPages [] 0x00400000 (fun _ => 0x90) 100⟩

end Pages

end MyOS
