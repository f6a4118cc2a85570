import MyOS.Paging.Lifetime
import MyOS.Pmm.Exclusive

/-!
# The footprint of an address space

A space from its creation over any calls of `paging_map_page_in_space` to its destruction: which
pages are written, and which of the allocator's pages are taken in between. The answer is exact but
for the word behind the page of the structure.
-/

namespace MyOS

namespace Paging

/-! ### The two pages of a new space -/

/-- `pmm_alloc_page` gives the page `k` to `paging_create_address_space`. -/
def Obtains (p : Pmm) (k : ℕ) : Prop :=
  p.pmmAllocPage.1 ≠ 0 ∧ (k = p.pmmAllocPage.1.toNat / 4096 ∨
    p.pmmAllocPage.2.pmmAllocPage.1 ≠ 0 ∧ k = p.pmmAllocPage.2.pmmAllocPage.1.toNat / 4096)

instance (p : Pmm) (k : ℕ) : Decidable (Obtains p k) :=
  inferInstanceAs (Decidable (_ ∧ (_ ∨ _ ∧ _)))

/-- `paging_create_address_space` writes only in the pages that it obtains. -/
def CreateLocal (K : KernelStatics) (st : Paging) : Prop :=
  ∀ a, ¬ Obtains st.pmm (a / 4096) →
    (pagingCreateAddressSpace packedLayout K st).2.mem a = st.mem a

/-- The allocator manages the memory behind the kernel. -/
def Managed (K : KernelStatics) (p : Pmm) : Prop :=
  p.managedStart = K.kernelEnd ∧ ∃ usable taken, p.Tracks usable taken

variable {K : KernelStatics} {st : Paging} {usable taken : Finset ℕ}

variable {p : Pmm} {role : ℕ → Role} {s d : UInt32} {L : SpaceLayout} {st0 : Paging}
  {taken0 : Finset ℕ}

/-- Before the first space no page has a role. -/
theorem sound_other (h : p.Tracks usable taken) : Sound p (fun _ => .other) usable taken :=
  ⟨h, fun _ _ _ => rfl, fun _ _ hk => absurd rfl hk⟩

theorem kernel_below (h : p.Tracks usable taken) (hs : p.managedStart = K.kernelEnd) :
    ∀ k ∈ usable, K.kernelEnd.toNat ≤ k * 4096 :=
  fun k hk => hs ▸ (h.range k hk).1

theorem createdRole_packed (hs : s.toNat % 4096 = 0) (k : ℕ) :
    createdRole packedLayout 1024 role s d k = if k = s.toNat / 4096 then .struct s
      else if k = d.toNat / 4096 then .directory s else role k := by
  refine if_congr (or_iff_left_of_imp ?_) rfl rfl
  rintro ⟨j, hj, rfl⟩
  change (s.toNat + 4 * j) / 4096 = _
  omega

/-- `owned_tables[1023]` of a structure in a page is cleared. -/
theorem clearedMem_spill (m : Mem) (s : UInt32) :
    clearedMem packedLayout m s (s.toNat + 4096) = 0 := by
  have hat : packedLayout.ownedAt s 0 = s.toNat + 4 := rfl
  refine (if_pos ⟨by omega, by unfold pageEntries; omega⟩).trans ?_
  simp [leByte]

theorem createLocal_of_adjacent (st : Paging) (hs : st.pmm.managedStart = K.kernelEnd)
    (h : st.pmm.Tracks usable taken) (ha : AdjacentPages st.pmm) : CreateLocal K st := by
  intro a hno
  rcases create_adjacent (sound_other h) (kernel_below h hs) (fun s k _ => by simp [Role.owner]) ha
    with heq | ⟨s, d, st', heq, hc⟩
  · rw [heq]
  · rw [heq]
    rw [hc.mem_eq]
    refine hc.room.createdMem_of_owner (.inl hc.adjacent) ?_
    unfold Obtains at hno
    rw [hc.space_eq, hc.dir_eq] at hno
    rw [createdRole_packed hc.room.space_aligned, if_neg fun hk => hno ⟨hc.room.space_ne, .inl hk⟩,
      if_neg fun hk => hno ⟨hc.room.space_ne, .inr ⟨hc.room.dir_ne, hk⟩⟩]
    simp [Role.owner]

/-- A memory that is nowhere zero shows the write behind the structure. -/
theorem adjacent_of_createLocal {m : Mem} {c : UInt32} (h : p.Tracks usable taken)
    (hm : ∀ a, m a ≠ 0) (hlocal : CreateLocal K ⟨m, p, c⟩) : AdjacentPages p := by
  rcases create_cases packedLayout K ⟨m, p, c⟩ (sound_other h) with
    ⟨hnull, -⟩ | ⟨s, p1, hp1, hf, hcase⟩
  · exact .inl (by rw [show p.pmmAllocPage = (0, p) from hnull])
  have hp1' : p.pmmAllocPage = (s, p1) := hp1
  have halign := hf.aligned
  have hne : (s.toNat + 4096) / 4096 ≠ s.toNat / 4096 := by omega
  rcases hcase with ⟨hnull, -, heq⟩ | ⟨d, p2, hp2, hf', heq⟩
  · -- only the structure has been obtained
    have hspill := hlocal (s.toNat + 4096) (by
      unfold Obtains
      rw [hp1', hnull]
      rintro ⟨-, hk | ⟨hk, -⟩⟩
      · exact hne hk
      · exact hk rfl)
    rw [heq] at hspill
    exact absurd (hspill.symm.trans (clearedMem_spill m s)) (hm _)
  · by_contra hadj
    have hd := hf'.aligned
    have hne' : (s.toNat + 4096) / 4096 ≠ d.toNat / 4096 := by
      intro h0
      refine hadj (.inr ?_)
      rw [hp1', hp2]
      refine UInt32.toNat_inj.mp (Eq.trans ?_ (toNat_add_page hf).symm)
      dsimp only
      omega
    have hspill := hlocal (s.toNat + 4096) (by
      unfold Obtains
      rw [hp1', hp2]
      rintro ⟨-, hk | ⟨-, hk⟩⟩
      · exact hne hk
      · exact hne' hk)
    rw [heq] at hspill
    -- neither the directory nor the first word of the structure covers it
    have hcreated : createdMem packedLayout K m s d (s.toNat + 4096) = 0 := by
      unfold createdMem copyPageTable pageEntries
      rw [Mem.store32_of_not_mem _ _ (.inr (by change s.toNat + 4 ≤ _; omega)),
        Mem.storeWords_of_not_mem _ _ (by omega)]
      exact clearedMem_spill m s
    exact absurd (hspill.symm.trans hcreated) (hm _)

/-! ### From creation to destruction -/

/-- A call of `paging_map_page_in_space`. -/
structure MapCall where
  virtualAddress : UInt32
  physicalAddress : UInt32
  flags : UInt32

/-- A sequence of calls on the space `s`. -/
def mapAll (L : SpaceLayout) (K : KernelStatics) (s : UInt32) (st : Paging) (calls : List MapCall) :
    Paging :=
  calls.foldl (fun st call => (pagingMapPageInSpace L K st s call.virtualAddress
    call.physicalAddress call.flags).2) st

/-- Without a space nothing is mapped. -/
theorem mapAll_null (calls : List MapCall) : mapAll L K 0 st calls = st := by
  induction calls with
  | nil => rfl
  | cons call calls ih => exact ih

/-- The space `s` since the state `st0`, in which it did not exist. -/
structure Alive (L : SpaceLayout) (usable : Finset ℕ) (s d : UInt32) (st0 st : Paging)
    (taken0 : Finset ℕ) (role : ℕ → Role) (taken : Finset ℕ) : Prop where
  sound : Sound st.pmm role usable taken
  owns : Owns L st.mem role s d
  linked : Linked L st.mem s d
  spill : Spill L st.mem role s d
  grown : Grown s st0.mem st.mem (fun _ => .other) role taken0 taken

/-- A run of map calls. -/
theorem Alive.mapAll (hks : s ≠ K.kernelSpace) (calls : List MapCall)
    (hidx : ∀ call ∈ calls, directoryIndex call.virtualAddress ≠ 1023)
    (h : Alive L usable s d st0 st taken0 role taken) :
    ∃ role' taken', Alive L usable s d st0 (mapAll L K s st calls) taken0 role' taken' := by
  induction calls generalizing st role taken with
  | nil => exact ⟨role, taken, h⟩
  | cons call calls ih =>
    have hi : directoryIndex call.virtualAddress < 1023 := by
      have := directoryIndex_lt call.virtualAddress
      have := hidx call (List.mem_cons_self ..)
      omega
    have hidx' := fun c hc => hidx c (List.mem_cons_of_mem _ hc)
    unfold Paging.mapAll
    rw [List.foldl_cons]
    rcases map_cases (K := K) h.sound h.owns h.linked hks call.virtualAddress call.physicalAddress
      call.flags hi with heq | ⟨t, e, st', role', taken', heq, hx, -, -⟩
    · rw [heq]
      exact ih hidx' h
    · rw [heq]
      exact ih hidx' ⟨hx.sound, hx.owns, hx.linked, hx.spill h.spill, h.grown.trans hx.grown⟩

/-- The state after `paging_create_address_space` and the map calls. -/
def mappedState (K : KernelStatics) (st : Paging) (calls : List MapCall) : Paging :=
  mapAll packedLayout K (pagingCreateAddressSpace packedLayout K st).1
    (pagingCreateAddressSpace packedLayout K st).2 calls

/-- The state after `paging_destroy_address_space`. -/
def destroyedState (K : KernelStatics) (st : Paging) (calls : List MapCall) : Paging :=
  pagingDestroyAddressSpace packedLayout K (mappedState K st calls)
    (pagingCreateAddressSpace packedLayout K st).1

/-- The page `k` has been allocated between `st` and `st'`. -/
def Allocated (st st' : Paging) (k : ℕ) : Prop :=
  k < 32768 ∧ st.pmm.bitmapTest k = false ∧ st'.pmm.bitmapTest k = true

/-- The life of a space leaves the memory outside of the pages allocated for it as it was, and in
the end the same pages are in use as before. -/
structure LifeLocal (K : KernelStatics) (st : Paging) (calls : List MapCall) : Prop where
  memory : ∀ a < 2 ^ 32, ¬ Allocated st (mappedState K st calls) (a / 4096) →
    (destroyedState K st calls).mem a = st.mem a
  pages : ∀ k < 32768, (destroyedState K st calls).pmm.bitmapTest k = st.pmm.bitmapTest k
  count : (destroyedState K st calls).pmm.usedPagesCount = st.pmm.usedPagesCount

section

variable (h₀ : st0.pmm.Tracks usable taken0) (h : Alive L usable s d st0 st taken0 role taken)
include h₀ h

/-- What the space has owned is what has been allocated. -/
theorem Alive.allocated {k : ℕ} (hk : k < 2 ^ 20)
    (hown : (role k).owner = some s) : Allocated st0 st k := by
  have hmem := h.sound.owner_taken k hk (by rw [hown]; simp)
  have husable := h.sound.tracks.subset hmem
  have hlt := h₀.lt_limit husable
  have hfree : k ∉ taken0 := h.grown.fresh k hk fun h0 => by
    rw [h0] at hown
    exact absurd hown (by simp [Role.owner])
  refine ⟨hlt, (h₀.bit k hlt).mpr ⟨husable, hfree⟩, ?_⟩
  rw [← Bool.not_eq_false, h.sound.tracks.bit k hlt]
  exact fun h0 => h0.2 hmem

/-- When the space has given its pages back, those of before are left. -/
theorem Alive.filter_owner :
    (taken.filter fun k => (role k).owner ≠ some s) = taken0 := by
  ext k
  rw [Finset.mem_filter]
  constructor
  · rintro ⟨hk, hown⟩
    rcases (h.grown.taken_iff k (h.sound.lt hk)).mp hk with hk | hne
    · exact hk
    · exact absurd (h.grown.gains k hne) hown
  · intro hk
    have hlt : k < 2 ^ 20 := by
      have := h₀.lt_limit (h₀.subset hk)
      omega
    refine ⟨(h.grown.taken_iff k hlt).mpr (.inl hk), fun hown => ?_⟩
    refine h.grown.fresh k hlt (fun h0 => ?_) hk
    rw [h0] at hown
    exact absurd hown (by simp [Role.owner])

end

/-- With adjacent pages, the life of a space changes only what free pages hold. -/
theorem lifeLocal (st : Paging) (hs : st.pmm.managedStart = K.kernelEnd)
    (h : st.pmm.Tracks usable taken) (ha : AdjacentPages st.pmm)
    (hentry : entry st.mem K.kernelPageDirectory 0 = 0 ∨
      (entry st.mem K.kernelPageDirectory 0).toNat % 4096 ≠ 0) (calls : List MapCall)
    (hidx : ∀ call ∈ calls, directoryIndex call.virtualAddress ≠ 1023) : LifeLocal K st calls := by
  rcases create_adjacent (sound_other h) (kernel_below h hs) (fun s k _ => by simp [Role.owner]) ha
    with heq | ⟨s, d, st', heq, hc⟩
  · -- no space, so the calls do nothing
    have hmapped : mappedState K st calls = st := by
      unfold mappedState
      rw [heq]
      exact mapAll_null calls
    have hdestroyed : destroyedState K st calls = st := by
      unfold destroyedState
      rw [hmapped, heq]
      exact if_pos (.inl rfl)
    exact ⟨fun a _ _ => by rw [hdestroyed], fun k _ => by rw [hdestroyed], by rw [hdestroyed]⟩
  · have hmapped : mappedState K st calls = mapAll packedLayout K s st' calls := by
      unfold mappedState
      rw [heq]
    have hdestroyed : destroyedState K st calls
        = pagingDestroyAddressSpace packedLayout K (mappedState K st calls) s := by
      unfold destroyedState
      rw [heq]
    have hks := hc.ne_kernelSpace
    have hgrown := hc.room.grown (m := st.mem) (.inl hc.adjacent) hc.space_free hc.dir_free
    have halive : Alive packedLayout usable s d st st' taken _ _ :=
      ⟨hc.sound, hc.mem_eq ▸ hc.room.owns, hc.mem_eq ▸ hc.room.linked,
        hc.mem_eq ▸ hc.room.spill (.inl ⟨hc.adjacent, hentry⟩), hc.mem_eq ▸ hgrown⟩
    -- the calls keep the space alive, and its destruction gives back what they have taken
    obtain ⟨role', taken', halive'⟩ := halive.mapAll hks calls hidx
    rw [← hmapped] at halive'
    obtain ⟨hsound, hframe⟩ := destroy_spec (K := K) halive'.sound halive'.owns halive'.spill hks
    rw [← hdestroyed, halive'.filter_owner h] at hsound
    rw [← hdestroyed] at hframe
    refine ⟨fun a hlt hno => ?_, fun k hk => ?_, ?_⟩
    · have hown : (role' (a / 4096)).owner ≠ some s := fun hown =>
        hno (halive'.allocated h (by omega) hown)
      rw [hframe a hown, halive'.grown.frame a hown]
    · rw [Bool.eq_iff_iff, ← not_iff_not, Bool.not_eq_true, Bool.not_eq_true,
        hsound.tracks.bit k hk, h.bit k hk]
    · apply UInt32.toNat_inj.mp
      rw [hsound.tracks.used, h.used]

/-- **The footprint of an address space.** `paging_create_address_space` writes only in the pages
that it obtains, for every content of the memory, if and only if no page is left or the next two
pages are adjacent. Where they are, and while no page of the last 4 MiB is mapped, the space touches
only its own pages until it is destroyed, and gives all of them back. The first entry of the
kernel's directory must not be the address of a page: `paging_initialize` makes it a present entry.
-/
theorem space_footprint (K : KernelStatics) (p : Pmm) (hp : Managed K p) :
    ((∀ m c, CreateLocal K ⟨m, p, c⟩) ↔ AdjacentPages p) ∧ (AdjacentPages p → ∀ m c calls,
      entry m K.kernelPageDirectory 0 = 0 ∨ (entry m K.kernelPageDirectory 0).toNat % 4096 ≠ 0 →
      (∀ call ∈ calls, directoryIndex call.virtualAddress ≠ 1023) →
      LifeLocal K ⟨m, p, c⟩ calls) := by
  obtain ⟨hs, usable, taken, h⟩ := hp
  refine ⟨⟨fun hlocal => ?_, fun ha m c => ?_⟩, fun ha m c calls hentry hidx => ?_⟩
  · exact adjacent_of_createLocal (m := ⟨fun _ => 1⟩) h (fun _ => (by decide : (1 : UInt8) ≠ 0))
      (hlocal _ 0)
  · exact createLocal_of_adjacent ⟨m, p, c⟩ hs h ha
  · exact lifeLocal ⟨m, p, c⟩ hs h ha hentry calls hidx

/-- A kernel that ends at 1 MiB. -/
def smallKernel : KernelStatics where
  toKernelImage := Pmm.smallImage
  kernelPageDirectory := 0x20000
  identityPageTables := 0x21000
  framebufferPageTables := 0x41000
  kernelSpace := 0x49000
  directory_aligned := by decide
  identity_aligned := by decide
  framebuffer_aligned := by decide
  space_aligned := by decide
  inside := by decide
  apart := by decide

theorem managed_alloc {start : Pmm} (hs : start.managedStart = K.kernelEnd)
    {ledger : List (Finset ℕ)} (h : start.Tracks usable ∅) (hr : Pmm.Reachable start p ledger) :
    Managed K p := by
  obtain ⟨htracks, -, hs', -⟩ := Pmm.reachable_tracks h hr
  exact ⟨hs'.trans hs, usable, _, htracks⟩

theorem managed_holeStart : ∃ usable, Pmm.holeStart.Tracks usable ∅ ∧
    Pmm.holeStart.managedStart = smallKernel.kernelEnd :=
  Pmm.pmmInitialize_tracks _ Pmm.smallImage Pmm.holeMap

/-- On the map with a hole the first two pages are adjacent. -/
theorem space_footprint_holeStart : AdjacentPages Pmm.holeStart ∧
    (∀ m c, CreateLocal smallKernel ⟨m, Pmm.holeStart, c⟩) ∧
    LifeLocal smallKernel ⟨⟨fun _ => 0⟩, Pmm.holeStart, 0⟩
      [⟨0x00500000, 0x1000, 6⟩, ⟨0x00501000, 0x2000, 2⟩] := by
  obtain ⟨usable, h, hs⟩ := managed_holeStart
  have ha : AdjacentPages Pmm.holeStart := .inr (by decide +kernel)
  have hall := space_footprint smallKernel Pmm.holeStart (managed_alloc hs h .init)
  exact ⟨ha, hall.1.mpr ha, hall.2 ha _ _ _ (.inl (by decide +kernel)) (by decide +kernel)⟩

/-- When two of the three pages before the hole are taken, `paging_create_address_space` clears a
word of the hole. -/
theorem createLocal_holeStart : Managed smallKernel (Pmm.holeStart.pmmAllocPages 2).2 ∧
    ¬ CreateLocal smallKernel ⟨⟨fun _ => 1⟩, (Pmm.holeStart.pmmAllocPages 2).2, 0⟩ := by
  obtain ⟨usable, h, hs⟩ := managed_holeStart
  refine ⟨managed_alloc hs h (Pmm.Reachable.init.alloc 2), fun hlocal => ?_⟩
  have hclear : (pagingCreateAddressSpace packedLayout smallKernel
      ⟨⟨fun _ => 1⟩, (Pmm.holeStart.pmmAllocPages 2).2, 0⟩).2.mem 0x103000 = 0 := by decide +kernel
  have hsame := hlocal 0x103000 (by decide +kernel)
  exact nomatch hclear.symm.trans hsame

end Paging

end MyOS
