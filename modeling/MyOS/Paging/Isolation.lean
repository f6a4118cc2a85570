import MyOS.Paging.Footprint
import MyOS.Paging.Run

/-!
# Isolation of address spaces

A translation reads the structure, the directory and one table of a space (`Visible`). A call on one
process space writes none of these pages of another, so all translations in the other space stay as
they are.
-/

namespace MyOS

open Paging

variable {K : KernelStatics} {usable taken : Finset ℕ} {st st' : Paging} {role role' : ℕ → Role}
  {live : Finset UInt32} {s s' d : UInt32}

/-! ### What a translation reads -/

/-- A page that the space `s` reads: one of the kernel's or its own. -/
def Visible (role : ℕ → Role) (s : UInt32) (k : ℕ) : Prop :=
  role k ≠ .other ∧ ((role k).owner = none ∨ (role k).owner = some s)

/-- The structure of a space, its directory and the tables are visible to it. -/
theorem PagingInv.visible (h : PagingInv K usable st role taken live)
    (hs : s = K.kernelSpace ∨ s ∈ live) : ∃ d, pageDirectory packedLayout st s = d ∧
      d.toNat % 4096 = 0 ∧ s.toNat % 4 = 0 ∧
      Visible role s (s.toNat / 4096) ∧ Visible role s (d.toNat / 4096) ∧
      (role (s.toNat / 4096)).index = none ∧ (role (d.toNat / 4096)).index = none ∧
      ∀ i < 1024, isPresent (entry st.mem d i) = true →
        Visible role s ((pageOf (entry st.mem d i)).toNat / 4096) := by
  rcases hs with rfl | hs
  · have hcell : role (K.kernelSpace.toNat / 4096) = .kernelData := h.kernel.cell_role 0 (by omega)
    refine ⟨_, h.kernel.dir_eq, K.directory_aligned, K.space_aligned, ?_, ?_, ?_, ?_,
      fun i hi hp => ?_⟩
    · rw [Visible, hcell]
      simp [Role.owner]
    · rw [Visible, h.kernel.dir_role]
      simp [Role.owner]
    · rw [hcell]
      rfl
    · rw [h.kernel.dir_role]
      rfl
    · rw [Visible, h.kernel.table i hi hp]
      simp [Role.owner]
  · obtain ⟨d, hd⟩ := h.space s hs
    have halign := hd.owns.space_aligned
    refine ⟨d, hd.owns.dir_eq, hd.owns.dir_aligned, by omega, ?_, ?_, ?_, ?_, fun i hi hp => ?_⟩
    · rw [Visible, hd.owns.space_role]
      simp [Role.owner]
    · rw [Visible, hd.owns.dir_role]
      simp [Role.owner]
    · rw [hd.owns.space_role]
      rfl
    · rw [hd.owns.dir_role]
      rfl
    · rcases hd.table i hi hp with hr | hr <;> rw [Visible, hr] <;> simp [Role.owner]

/-- Two states in which a walk reads the same entries, or none. -/
theorem getPhysical_congr {L : SpaceLayout} {v : UInt32}
    (hd : pageDirectory L st s = d) (hd' : pageDirectory L st' s = d)
    (he : entry st'.mem d (directoryIndex v) = entry st.mem d (directoryIndex v))
    (ht : isPresent (entry st.mem d (directoryIndex v)) = true →
      entry st'.mem (pageOf (entry st.mem d (directoryIndex v))) (tableIndex v)
        = entry st.mem (pageOf (entry st.mem d (directoryIndex v))) (tableIndex v) ∨
      isPresent (entry st'.mem (pageOf (entry st.mem d (directoryIndex v))) (tableIndex v)) =
        false ∧
      isPresent (entry st.mem (pageOf (entry st.mem d (directoryIndex v))) (tableIndex v)) =
        false) :
    pagingGetPhysicalInSpace L st' s v = pagingGetPhysicalInSpace L st s v := by
  unfold pagingGetPhysicalInSpace
  rw [hd, hd', he]
  dsimp only
  by_cases hp : isPresent (entry st.mem d (directoryIndex v)) = true
  · rcases ht hp with heq | ⟨h', h⟩
    · rw [heq]
    · rw [h', h]
      rfl
  · rw [Bool.not_eq_true] at hp
    rw [hp]
    rfl

/-- A change apart from what a space sees does not change its translations. -/
theorem PagingInv.translate_apart (h : PagingInv K usable st role taken live)
    (hs : s' = K.kernelSpace ∨ s' ∈ live) (hne : s ≠ s')
    (ha : ApartFrom s st.mem st'.mem role role')
    (v : UInt32) : pagingGetPhysicalInSpace packedLayout st' s' v
      = pagingGetPhysicalInSpace packedLayout st s' v := by
  obtain ⟨d, hd, halign, hspace, hvs, hvd, -, -, hvt⟩ := h.visible hs
  have hframe : ∀ {k}, Visible role s' k → ∀ a, a / 4096 = k → st'.mem a = st.mem a := by
    rintro k ⟨hk, hown⟩ a rfl
    refine ha.frame a hk ?_
    rcases hown with hown | hown <;> rw [hown]
    · simp
    · simpa using hne.symm
  have hi := directoryIndex_lt v
  refine getPhysical_congr hd ?_ ?_ fun hp => .inl ?_
  · rw [← hd]
    exact load32_of_page hspace (hframe hvs)
  · exact entry_of_page halign hi (hframe hvd)
  · exact entry_of_page (pageOf_aligned _) (tableIndex_lt v) (hframe (hvt _ hi hp))

/-! ### Calls on process spaces -/

/-- The entry that `paging_unmap_page_in_space` clears is the space's own, or it does not map a
page. -/
def PrivateEntry (st : Paging) (s v : UInt32) : Prop :=
  let e := entry st.mem (pageDirectory packedLayout st s) (directoryIndex v)
  isPresent e = false ∨ isPresent (entry st.mem (pageOf e) (tableIndex v)) = false ∨
    directoryIndex v ≠ 1023 ∧ ownedTable packedLayout st s (directoryIndex v) ≠ 0

/-- The call keeps away from `owned_tables[1023]`, and in a process space it unmaps only private
entries. -/
def PagingOp.Isolating (K : KernelStatics) (st : Paging) (op : PagingOp) : Prop :=
  op.Contained K st ∧ ∀ s v, op = .unmap s v → s = K.kernelSpace ∨ PrivateEntry st s v

/-- The call is visible in no other space: not in the kernel's and not in a live one. -/
def Isolated (K : KernelStatics) (st : Paging) (live : Finset UInt32) (op : PagingOp) : Prop :=
  ∀ s, s = K.kernelSpace ∨ s ∈ live → op.space ≠ some s → ∀ v,
    pagingGetPhysicalInSpace packedLayout (op.exec K st) s v
      = pagingGetPhysicalInSpace packedLayout st s v

section

variable (h : PagingInv K usable st role taken live)
include h

/-- A table entry that is not present is cleared: no space sees the difference. -/
theorem PagingInv.translate_cleared
    (hs : s' = K.kernelSpace ∨ s' ∈ live) {t : UInt32} {i j : ℕ} (ht : t.toNat % 4096 = 0)
    (hindex : (role (t.toNat / 4096)).index = some i) (hj : j < 1024)
    (hp : isPresent (entry st.mem t j) = false) (v : UInt32) :
    pagingGetPhysicalInSpace packedLayout { st with mem := setEntry st.mem t j 0 } s' v
      = pagingGetPhysicalInSpace packedLayout st s' v := by
  obtain ⟨d, hd, halign, hspace, -, -, hs0, hd0, -⟩ := h.visible hs
  have hframe : ∀ {k}, (role k).index = none → ∀ a, a / 4096 = k →
      setEntry st.mem t j 0 a = st.mem a := by
    rintro k hk a rfl
    refine setEntry_of_page ht hj fun h0 => ?_
    rw [h0, hindex] at hk
    cases hk
  refine getPhysical_congr hd ?_ (entry_of_page halign (directoryIndex_lt v) (hframe hd0))
    fun _ => ?_
  · rw [← hd]
    exact load32_of_page hspace (hframe hs0)
  · have halign' := pageOf_aligned (entry st.mem d (directoryIndex v))
    have hj' := tableIndex_lt v
    generalize pageOf (entry st.mem d (directoryIndex v)) = t' at *
    by_cases htt : t' = t
    · subst htt
      rw [entry_setEntry ht]
      split_ifs with hjj
      · exact .inr ⟨by decide, hjj ▸ hp⟩
      · exact .inl rfl
    · refine .inl (entry_of_page halign' hj' fun a ha => setEntry_of_page ht hj fun h0 => htt ?_)
      exact UInt32.toNat_inj.mp (by omega)

theorem PagingInv.unmap_isolated (hs : s ∈ live)
    {v : UInt32} (hpriv : PrivateEntry st s v) : Isolated K st live (.unmap s v) := by
  intro s' hs' hne v'
  obtain ⟨hs0, d, hd, hd0, -, htable⟩ := h.directory (.inr hs)
  unfold PrivateEntry at hpriv
  rw [hd] at hpriv
  dsimp only [PagingOp.exec] at hpriv ⊢
  unfold pagingUnmapPageInSpace
  rw [hd, if_neg (by simp [hs0, hd0])]
  dsimp only
  split_ifs with hp
  · rfl
  have hp' : isPresent (entry st.mem d (directoryIndex v)) = true := by simpa using hp
  have hindex := htable _ (directoryIndex_lt v) hp'
  rcases hpriv with h0 | h0 | ⟨hi, hown⟩
  · exact absurd h0 hp
  · exact h.translate_cleared hs' (pageOf_aligned _) hindex (tableIndex_lt v) h0 v'
  · -- a table of the space's own is not visible to another space
    obtain ⟨d', hhealthy⟩ := h.space s hs
    obtain rfl : d' = d := hhealthy.owns.dir_eq.symm.trans hd
    have hi' : directoryIndex v < 1023 := by
      have := directoryIndex_lt v
      omega
    have hpage := (hhealthy.linked _ hi' hown).2
    have hrole := hhealthy.owns.table_role hi' hown
    rw [← hpage] at hrole
    refine h.translate_apart (s := s) hs' (fun h0 => hne (by rw [h0]; rfl))
      (show ApartFrom s st.mem _ role role from
        ⟨fun _ _ _ => rfl, fun _ h0 => absurd rfl h0, fun a _ hown => ?_⟩) v'
    refine setEntry_of_page (pageOf_aligned _) (tableIndex_lt v) fun h0 => hown ?_
    rw [h0, hrole]
    rfl

/-- **Step.** An operation within the condition is not seen from any other space. -/
theorem PagingInv.isolated (op : PagingOp)
    (hspace : ∀ s, op.space = some s → s ∈ live) (hop : op.Isolating K st) :
    Isolated K st live op := by
  obtain ⟨hcont, hunmap⟩ := hop
  cases op with
  | create =>
    intro s' hs' _ v
    dsimp only [PagingOp.exec]
    rcases h.create hcont with heq | ⟨s, st', role', taken', heq, -, hnew, hinv, ha, -⟩
    · rw [heq]
    · rw [heq]
      refine h.translate_apart hs' ?_ ha v
      rintro rfl
      rcases hs' with hs' | hs'
      · exact hinv.ne_kernelSpace (Finset.mem_insert_self ..) hs'
      · exact hnew hs'
  | map s v pa flags =>
    intro s' hs' hne v'
    have hs := hspace s rfl
    dsimp only [PagingOp.exec]
    rcases h.map hs v pa flags (hcont.resolve_left (h.ne_kernelSpace hs)) with
      heq | ⟨st', role', taken', heq, -, ha, -⟩
    · rw [heq]
    · rw [heq]
      exact h.translate_apart hs' (fun h0 => hne (by rw [h0]; rfl)) ha v'
  | unmap s v =>
    have hs := hspace s rfl
    exact h.unmap_isolated hs ((hunmap s v rfl).resolve_left (h.ne_kernelSpace hs))
  | destroy s =>
    intro s' hs' hne v
    obtain ⟨role', taken', -, ha, -⟩ := h.destroy (hspace s rfl)
    exact h.translate_apart hs' (fun h0 => hne (by rw [h0]; rfl)) ha v

end

/-- **Isolation.** In a run from `paging_initialize` whose calls keep away from `owned_tables[1023]`
and unmap only private entries in process spaces, a further such call on a process space changes no
translation of the kernel's space or of another live space. -/
theorem space_isolation (K : KernelStatics) (p : Pmm) (hp : Managed K p) (m : Mem)
    (physical size : UInt32) {st : Paging} {live : Finset UInt32} {ops : List PagingOp}
    (hrun : PagingRun K (fun st op => op.Isolating K st)
      (pagingInitialize packedLayout K m p physical size) st live ops) (op : PagingOp)
    (hspace : ∀ s, op.space = some s → s ∈ live) (hop : op.Isolating K st) :
    Isolated K st live op := by
  obtain ⟨hs, usable, taken, htracks⟩ := hp
  obtain ⟨role, taken', hinv, -⟩ :=
    hrun.inv (fun _ _ h => h.1) (pagingInitialize_inv htracks hs m physical size)
  exact hinv.isolated op hspace hop

/-- Eight pages behind the small kernel. -/
def eightPages : Pmm :=
  (⟨fun _ => 0, 0, 0, 0, 0⟩ : Pmm).pmmInitialize Pmm.smallImage.kernelEnd [⟨0x100000, 0x8000, 1⟩]

theorem managed_eightPages : Managed smallKernel eightPages := by
  obtain ⟨usable, h, hs⟩ := Pmm.pmmInitialize_tracks _ Pmm.smallImage [⟨0x100000, 0x8000, 1⟩]
  exact managed_alloc hs h .init

/-- The small kernel after `paging_initialize`. -/
def bootedKernel : Paging := pagingInitialize packedLayout smallKernel ⟨fun _ => 0⟩ eightPages 0 0

/-- The kernel and one new process space. -/
def firstSpace : Paging := PagingOp.exec smallKernel bootedKernel .create

/-- A page is mapped in it. -/
def oneSpace : Paging :=
  PagingOp.exec smallKernel firstSpace (.map 0x100000 0x00500000 0x107000 6)

section OneSpace

variable {A : Paging → PagingOp → Prop}

theorem firstSpace_run (hcreate : A bootedKernel .create) :
    PagingRun smallKernel A bootedKernel firstSpace {0x100000} [.create] := by
  have hlive : PagingOp.live smallKernel bootedKernel ∅ .create = {0x100000} := by decide +kernel
  exact hlive ▸ PagingRun.init.step .create (fun s h0 => absurd h0 (by simp [PagingOp.space]))
    hcreate

/-- The two calls are a run under every condition that they meet. -/
theorem oneSpace_run (hcreate : A bootedKernel .create)
    (hmap : A firstSpace (.map 0x100000 0x00500000 0x107000 6)) :
    PagingRun smallKernel A bootedKernel oneSpace {0x100000}
      [.map 0x100000 0x00500000 0x107000 6, .create] :=
  (firstSpace_run hcreate).step _ (fun s h0 => .inr (by simpa [PagingOp.space, eq_comm] using h0))
    hmap

end OneSpace

/-- Unmapping that page is isolated. -/
theorem space_isolation_oneSpace :
    Isolated smallKernel oneSpace {0x100000} (.unmap 0x100000 0x00500000) := by
  have hrun := oneSpace_run (A := fun st op => op.Isolating smallKernel st)
    ⟨.inr (by decide +kernel), nofun⟩
    ⟨.inr (by decide +kernel), nofun⟩
  refine space_isolation smallKernel eightPages managed_eightPages _ 0 0 hrun _
    (fun s h0 => by simpa [PagingOp.space, PagingOp.live, eq_comm] using h0)
    ⟨trivial, fun s v h0 => .inr ?_⟩
  obtain ⟨rfl, rfl⟩ : 0x100000 = s ∧ 0x00500000 = v := by simpa using h0
  exact .inr (.inr ⟨by decide +kernel, by decide +kernel⟩)

/-- Unmapping a page that the new space shares with the kernel takes it from the kernel's identity
map. -/
theorem isolated_bootedKernel : ∃ st live ops op,
    PagingRun smallKernel (fun _ _ => True) bootedKernel st live ops ∧
    (∀ s, op.space = some s → s ∈ live) ∧ ¬ Isolated smallKernel st live op := by
  refine ⟨_, _, _, .unmap 0x100000 0x00500000, firstSpace_run trivial, fun s h0 => ?_, fun h => ?_⟩
  · simpa [PagingOp.space, eq_comm] using h0
  · exact absurd (h smallKernel.kernelSpace (.inl rfl) (by decide) 0x00500000) (by decide +kernel)

end MyOS
