import MyOS.Paging.Owned

/-!
# The kernel's tables

What `paging_initialize` builds: the directory of the kernel, thirty-two tables that map the first
128 MiB to themselves, and up to eight tables for the framebuffer. `Booting` is the invariant of its
loops. No entry is for user mode (`Marks` with nothing issued), and all of it lies below the end of
the kernel (`pagingInitialize_ok`).
-/

namespace MyOS

open Function

/-- The index in the directory of the tables that a page may serve as. -/
def Role.index : Role → Option ℕ
  | .kernelTable i => some i
  | .table _ i => some i
  | _ => none

/-- The entries for user mode in all tables are among `issued`. -/
def Marks (m : Mem) (role : ℕ → Role) (issued : ℕ → ℕ → Prop) : Prop :=
  ∀ k i, (role k).index = some i → ∀ j < 1024, isUser (m.load32 (4096 * k + 4 * j)) = true →
    issued i j

/-- The directory of the kernel refers to tables of the kernel, each for its own index. -/
structure KernelTables (K : KernelStatics) (m : Mem) (role : ℕ → Role) : Prop where
  cell_role : ∀ j < 1025, role ((K.kernelSpace.toNat + 4 * j) / 4096) = .kernelData
  dir_role : role (K.kernelPageDirectory.toNat / 4096) = .kernelDirectory
  table : ∀ i < 1024, isPresent (entry m K.kernelPageDirectory i) = true →
    role ((pageOf (entry m K.kernelPageDirectory i)).toNat / 4096) = .kernelTable i

section Tables

variable {K : KernelStatics} {m m' : Mem} {role role' : ℕ → Role} {issued issued' : ℕ → ℕ → Prop}
  {t w e : UInt32} {i j : ℕ}

/-! ### Entries for user mode -/

section

variable (h : Marks m role issued)
include h

theorem Marks.mono (hle : ∀ i j, issued i j → issued' i j) :
    Marks m role issued' :=
  fun k i hk j hj hu => hle i j (h k i hk j hj hu)

/-- Only the tables count. -/
theorem Marks.congr (hm : ∀ a, (role' (a / 4096)).index ≠ none → m' a = m a)
    (hrole : ∀ k i, (role' k).index = some i → (role k).index = some i) :
    Marks m' role' issued := by
  intro k i hk j hj hu
  refine h k i (hrole k i hk) j hj ?_
  rwa [load32_of_page (show (4096 * k + 4 * j) % 4 = 0 by omega) fun a ha => hm a ?_] at hu
  rw [ha, show (4096 * k + 4 * j) / 4096 = k by omega, hk]
  simp

/-- Entries of a table are written in a row. -/
theorem Marks.storeWords {n : ℕ} {f : ℕ → UInt32}
    (ht : t.toNat % 4096 = 0) (hr : (role (t.toNat / 4096)).index = some i) (hn : j + n ≤ 1024)
    (hf : ∀ l < n, isUser (f l) = true → issued i (j + l)) :
    Marks (m.storeWords (t.toNat + 4 * j) n f) role issued := by
  intro k i' hk j' hj' hu
  by_cases hin : k = t.toNat / 4096 ∧ j ≤ j' ∧ j' < j + n
  · obtain ⟨rfl, hlo, hhi⟩ := hin
    obtain rfl : i = i' := Option.some.inj (hr.symm.trans hk)
    rw [show 4096 * (t.toNat / 4096) + 4 * j' = t.toNat + 4 * j + 4 * (j' - j) by omega,
      Mem.load32_storeWords _ _ (by omega)] at hu
    have := hf (j' - j) (by omega) hu
    rwa [show j + (j' - j) = j' by omega] at this
  · rw [Mem.load32_storeWords_of_disjoint _ _ (by omega)] at hu
    exact h k i' hk j' hj' hu

/-- One entry of a table is written. -/
theorem Marks.setEntry (ht : t.toNat % 4096 = 0)
    (hr : (role (t.toNat / 4096)).index = some i) (hj : j < 1024)
    (hw : isUser w = true → issued i j) : Marks (setEntry m t j w) role issued := by
  have hone : MyOS.setEntry m t j w = m.storeWords (t.toNat + 4 * j) 1 fun _ => w := by
    rw [Mem.storeWords_succ, Mem.storeWords_zero]
    rfl
  rw [hone]
  refine h.storeWords ht hr (by omega) fun l hl hu => ?_
  obtain rfl : l = 0 := by omega
  exact hw hu

/-- A page becomes a table. -/
theorem Marks.update (ht : t.toNat % 4096 = 0) {r : Role}
    (hr : r.index = some i) (hc : ∀ j < 1024, isUser (entry m t j) = true → issued i j) :
    Marks m (update role (t.toNat / 4096) r) issued := by
  intro k i' hk j hj hu
  by_cases heq : k = t.toNat / 4096
  · subst heq
    rw [update_self] at hk
    obtain rfl : i = i' := Option.some.inj (hr.symm.trans hk)
    rw [show 4096 * (t.toNat / 4096) = t.toNat by omega] at hu
    exact hc j hj hu
  · rw [update_of_ne heq] at hk
    exact h k i' hk j hj hu

end

/-! ### The directory of the kernel -/

namespace KernelTables

theorem congr (h : KernelTables K m role)
    (hm : ∀ a, role (a / 4096) = .kernelDirectory → m' a = m a)
    (hrole : ∀ k, role k ≠ .other → (role k).owner = none → role' k = role k) :
    KernelTables K m' role' := by
  have hentry : ∀ i < 1024, entry m' K.kernelPageDirectory i = entry m K.kernelPageDirectory i :=
    fun i hi => entry_of_page K.directory_aligned hi fun a ha => hm a (ha ▸ h.dir_role)
  refine ⟨fun j hj => ?_, ?_, fun i hi hp => ?_⟩
  · have := h.cell_role j hj
    rw [hrole _ (by rw [this]; simp) (by rw [this]; rfl), this]
  · rw [hrole _ (by rw [h.dir_role]; simp) (by rw [h.dir_role]; rfl), h.dir_role]
  · rw [hentry i hi] at hp ⊢
    have := h.table i hi hp
    rw [hrole _ (by rw [this]; simp) (by rw [this]; rfl), this]

/-- An entry of the directory is written. -/
theorem setEntry (h : KernelTables K m role)
    (he : isPresent e = true → role ((pageOf e).toNat / 4096) = .kernelTable i) :
    KernelTables K (setEntry m K.kernelPageDirectory i e) role := by
  refine ⟨h.cell_role, h.dir_role, fun i' hi' hp => ?_⟩
  rw [entry_setEntry K.directory_aligned] at hp ⊢
  split_ifs at hp ⊢ with heq
  · exact heq ▸ he hp
  · exact h.table i' hi' hp

/-- The directory is aligned, and a page with another role is another page. -/
theorem dir_of_role (h : KernelTables K m role) (hj : j < 1024) {a : ℕ}
    (ha : role (a / 4096) ≠ .kernelDirectory) :
    MyOS.setEntry m K.kernelPageDirectory j w a = m a :=
  setEntry_of_page K.directory_aligned hj fun h0 => ha (h0 ▸ h.dir_role)

end KernelTables

section

variable (h : KernelTables K m role) (hmarks : Marks m role issued) (ht : t.toNat % 4096 = 0)
  (hother : role (t.toNat / 4096) = .other)
include h hmarks ht hother

/-- A page that was not in use is filled. -/
theorem KernelTables.fill {c : ℕ → UInt32} :
    KernelTables K (m.storeWords t.toNat pageEntries c) role ∧
    Marks (m.storeWords t.toNat pageEntries c) role issued := by
  have hframe : ∀ a, role (a / 4096) ≠ .other → m.storeWords t.toNat pageEntries c a = m a := by
    intro a ha
    have := page_ne_of_role rfl hother ha
    exact Mem.storeWords_of_not_mem _ _ (by unfold pageEntries; omega)
  exact ⟨h.congr (fun a ha => hframe a (by rw [ha]; simp)) fun _ _ _ => rfl,
    hmarks.congr (fun a ha => hframe a fun h0 => ha (by rw [h0]; rfl)) fun _ _ => id⟩

/-- Such a page becomes a table of the kernel. -/
theorem KernelTables.install
    (hc : ∀ j < 1024, isUser (entry m t j) = true → issued i j) (hi : i < 1024)
    (hpage : pageOf e = t) :
    KernelTables K (MyOS.setEntry m K.kernelPageDirectory i e)
      (update role (t.toNat / 4096) (.kernelTable i)) ∧
    Marks (MyOS.setEntry m K.kernelPageDirectory i e)
      (update role (t.toNat / 4096) (.kernelTable i)) issued := by
  have h1 : KernelTables K m (update role (t.toNat / 4096) (.kernelTable i)) :=
    h.congr (fun _ _ => rfl) fun k hk _ => update_of_ne (page_ne_of_role rfl hother hk) ..
  have hmarks1 := hmarks.update (r := .kernelTable i) ht rfl hc
  refine ⟨h1.setEntry fun _ => ?_, hmarks1.congr (fun a ha => h1.dir_of_role hi fun h0 => ?_)
    fun _ _ => id⟩
  · rw [hpage, update_self]
  · exact ha (by rw [h0]; rfl)

end

end Tables

/-! ### Initialisation -/

section Initialize

variable {K : KernelStatics} {m : Mem} {role : ℕ → Role}

/-- The state of `paging_initialize` when `identity` of the identity tables and `slots` of the
tables for the framebuffer are in use. The loader's framebuffer may be anywhere. -/
structure Booting (K : KernelStatics) (m : Mem) (role : ℕ → Role) (identity slots : ℕ) : Prop where
  tables : KernelTables K m role
  plain : Marks m role fun _ _ => False
  below : ∀ k, role k ≠ .other → k * 4096 < K.kernelEnd.toNat ∧ (role k).owner = none
  identity_free : ∀ n, identity ≤ n → n < 32 →
    role ((K.identityPageTables.toNat + 4096 * n) / 4096) = .other
  slot_free : ∀ n, slots ≤ n → n < 8 →
    role ((K.framebufferPageTables.toNat + 4096 * n) / 4096) = .other
  first : 0 < identity → isPresent (entry m K.kernelPageDirectory 0) = true

/-- The pages of the directory and of the structure of the kernel. -/
def kernelRole (K : KernelStatics) (k : ℕ) : Role :=
  if k = K.kernelPageDirectory.toNat / 4096 then .kernelDirectory
  else if K.kernelSpace.toNat / 4096 ≤ k ∧ k ≤ (K.kernelSpace.toNat + 4096) / 4096 then .kernelData
  else .other

/-- The static arrays of `paging.c` are in different pages. -/
theorem KernelStatics.bounds (K : KernelStatics) :
    K.kernelPageDirectory.toNat + 4096 ≤ K.kernelEnd.toNat ∧
    K.identityPageTables.toNat + 32 * 4096 ≤ K.kernelEnd.toNat ∧
    K.framebufferPageTables.toNat + 8 * 4096 ≤ K.kernelEnd.toNat ∧
    K.kernelSpace.toNat + 4100 ≤ K.kernelEnd.toNat ∧ 0 < K.kernelPageDirectory.toNat ∧
    0 < K.kernelSpace.toNat := by
  have h := K.inside
  simp only [List.mem_cons, List.not_mem_nil, or_false, forall_eq_or_imp, forall_eq] at h
  omega

theorem KernelStatics.directory_ne (K : KernelStatics) : K.kernelPageDirectory ≠ 0 := by
  intro h0
  have hb := K.bounds
  rw [h0, UInt32.toNat_zero] at hb
  omega

theorem KernelStatics.disjoint (K : KernelStatics) :
    (K.kernelPageDirectory.toNat + 4096 ≤ K.identityPageTables.toNat ∨
      K.identityPageTables.toNat + 32 * 4096 ≤ K.kernelPageDirectory.toNat) ∧
    (K.kernelPageDirectory.toNat + 4096 ≤ K.framebufferPageTables.toNat ∨
      K.framebufferPageTables.toNat + 8 * 4096 ≤ K.kernelPageDirectory.toNat) ∧
    (K.kernelPageDirectory.toNat + 4096 ≤ K.kernelSpace.toNat ∨
      K.kernelSpace.toNat + 4100 ≤ K.kernelPageDirectory.toNat) ∧
    (K.identityPageTables.toNat + 32 * 4096 ≤ K.framebufferPageTables.toNat ∨
      K.framebufferPageTables.toNat + 8 * 4096 ≤ K.identityPageTables.toNat) ∧
    (K.identityPageTables.toNat + 32 * 4096 ≤ K.kernelSpace.toNat ∨
      K.kernelSpace.toNat + 4100 ≤ K.identityPageTables.toNat) ∧
    (K.framebufferPageTables.toNat + 8 * 4096 ≤ K.kernelSpace.toNat ∨
      K.kernelSpace.toNat + 4100 ≤ K.framebufferPageTables.toNat) := by
  have h := K.apart
  simp only [List.pairwise_cons, List.mem_cons, List.not_mem_nil, or_false, forall_eq_or_imp,
    forall_eq] at h
  obtain ⟨⟨h1, h2, h3⟩, ⟨h4, h5⟩, h6, -⟩ := h
  exact ⟨h1, h2, h3, h4, h5, h6⟩

theorem kernelRole_of_apart {a : ℕ} (ha : a % 4096 = 0)
    (hd : K.kernelPageDirectory.toNat + 4096 ≤ a ∨ a + 4096 ≤ K.kernelPageDirectory.toNat)
    (hs : K.kernelSpace.toNat + 4100 ≤ a ∨ a + 4096 ≤ K.kernelSpace.toNat) :
    kernelRole K (a / 4096) = .other := by
  have hdir := K.directory_aligned
  have hspace := K.space_aligned
  unfold kernelRole
  rw [if_neg (by omega), if_neg (by omega)]

/-- The first loop of `paging_initialize`: an entry is `PAGE_WRITABLE`, which is not present. -/
theorem not_present_empty (K : KernelStatics) (m : Mem) {i : ℕ} (hi : i < 1024) : isPresent
    (entry (Paging.clearKernelSpace packedLayout K m) K.kernelPageDirectory i) = false := by
  have hdir := K.directory_aligned
  have hspace := K.space_aligned
  have hd := K.disjoint.2.2.1
  rw [Paging.clearKernelSpace, entry_of_page hdir hi fun a ha => Mem.storeWords_of_not_mem _ _ ?_]
  · rw [show entry (m.storeWords K.kernelPageDirectory.toNat pageEntries fun _ => pageWritable)
      K.kernelPageDirectory i = pageWritable from Mem.load32_storeWords _ _ hi]
    decide
  · change a < K.kernelSpace.toNat + 4 + 4 * 0 ∨ K.kernelSpace.toNat + 4 + 4 * 0 + 4 * 1024 ≤ a
    omega

/-- The first two loops of `paging_initialize`: the directory is empty. -/
theorem booting_empty (K : KernelStatics) (m : Mem) :
    Booting K (Paging.clearKernelSpace packedLayout K m) (kernelRole K) 0 0 := by
  have hdir := K.directory_aligned
  have hspace := K.space_aligned
  have hid := K.identity_aligned
  have hfb := K.framebuffer_aligned
  have hb := K.bounds
  have hindex : ∀ k, (kernelRole K k).index = none := fun k => by
    unfold kernelRole
    split_ifs <;> rfl
  refine ⟨⟨fun j hj => ?_, if_pos rfl, fun i hi hp => ?_⟩, fun k i hk => ?_, fun k hk => ?_,
    fun n _ hn => ?_, fun n _ hn => ?_, fun h0 => absurd h0 (by omega)⟩
  · have hd := K.disjoint.2.2.1
    unfold kernelRole
    rw [if_neg (by omega), if_pos (by omega)]
  · rw [not_present_empty K m hi] at hp
    cases hp
  · rw [hindex] at hk
    cases hk
  · unfold kernelRole at hk ⊢
    split_ifs at hk ⊢ with h1 h2
    · exact ⟨by omega, rfl⟩
    · exact ⟨by omega, rfl⟩
    · exact absurd rfl hk
  · obtain ⟨hd, -, -, -, hs, -⟩ := K.disjoint
    exact kernelRole_of_apart (by omega) (by omega) (by omega)
  · obtain ⟨-, hd, -, -, -, hs⟩ := K.disjoint
    exact kernelRole_of_apart (by omega) (by omega) (by omega)

/-- A static page becomes a table. -/
theorem Booting.install {identity slots : ℕ} (identity' slots' : ℕ) {t e : UInt32} {i : ℕ}
    {c : ℕ → UInt32} (h : Booting K m role identity slots) (ht : t.toNat % 4096 = 0)
    (hother : role (t.toNat / 4096) = .other) (hlt : t.toNat < K.kernelEnd.toNat)
    (hc : ∀ j, isUser (c j) = false) (hi : i < 1024) (hpage : pageOf e = t)
    (hpresent : isPresent e = true) (hid : ∀ n, identity' ≤ n → n < 32 → identity ≤ n ∧
      (K.identityPageTables.toNat + 4096 * n) / 4096 ≠ t.toNat / 4096)
    (hslot : ∀ n, slots' ≤ n → n < 8 → slots ≤ n ∧
      (K.framebufferPageTables.toNat + 4096 * n) / 4096 ≠ t.toNat / 4096)
    (hfirst : 0 < identity' → 0 < identity ∨ i = 0) :
    Booting K (setEntry (m.storeWords t.toNat pageEntries c) K.kernelPageDirectory i e)
      (update role (t.toNat / 4096) (.kernelTable i)) identity' slots' := by
  obtain ⟨htables, hmarks⟩ := h.tables.fill (c := c) h.plain ht hother
  obtain ⟨htables, hmarks⟩ := htables.install (i := i) hmarks ht hother (fun j hj hu => by
    rw [show entry (m.storeWords t.toNat pageEntries c) t j = c j from Mem.load32_storeWords _ _ hj,
      hc j] at hu
    cases hu) hi hpage
  refine ⟨htables, hmarks, fun k hk => ?_, fun n hn hn' => ?_, fun n hn hn' => ?_, fun h0 => ?_⟩
  · by_cases heq : k = t.toNat / 4096
    · subst heq
      rw [update_self]
      exact ⟨by omega, rfl⟩
    · rw [update_of_ne heq] at hk ⊢
      exact h.below k hk
  · rw [update_of_ne (hid n hn hn').2]
    exact h.identity_free n (hid n hn hn').1 hn'
  · rw [update_of_ne (hslot n hn hn').2]
    exact h.slot_free n (hslot n hn hn').1 hn'
  · rw [entry_setEntry K.directory_aligned]
    by_cases hi0 : 0 = i
    · rw [if_pos hi0]
      exact hpresent
    · have hne := page_ne_of_role h.tables.dir_role hother (by simp)
      have := K.directory_aligned
      rw [if_neg hi0, entry_of_page K.directory_aligned (by omega) fun a ha =>
        Mem.storeWords_of_not_mem _ _ (by unfold pageEntries; omega)]
      exact h.first ((hfirst h0).resolve_right fun h1 => hi0 h1.symm)

/-- A word that `paging_initialize` writes: a page, without the flag for user mode. -/
theorem isUser_supervisor {a : UInt32} (ha : a.toNat % 4096 = 0) :
    isUser (a ||| pagePresent ||| pageWritable) = false := by
  rw [isUser_or, isUser_or, isUser_of_aligned ha]
  decide

theorem present_supervisor {a : UInt32} (ha : a.toNat % 4096 = 0) :
    isPresent (a ||| pagePresent ||| pageWritable) = true ∧
    pageOf (a ||| pagePresent ||| pageWritable) = a := by
  refine ⟨?_, ?_⟩
  · rw [isPresent_or, isPresent_or]
    simp [show isPresent pagePresent = true from rfl]
  · rw [pageOf_or _ (by decide), pageOf_or _ (by decide), pageOf_of_aligned ha]

theorem toNat_ofNat_page (n : ℕ) : (UInt32.ofNat (4096 * n)).toNat % 4096 = 0 := by
  rw [UInt32.toNat_ofNat']
  omega

namespace Paging

theorem booting_identity_step {n : ℕ} (h : Booting K m role n 0) (hn : n < 32) :
    ∃ role', Booting K (identityRound K m n) role' (n + 1) 0 := by
  unfold identityRound
  have hb := K.bounds
  obtain ⟨-, -, -, hd, -, -⟩ := K.disjoint
  have hid := K.identity_aligned
  have hfb := K.framebuffer_aligned
  have hlt := K.kernelEnd.toNat_lt
  have ht := Word.toNat_add_ofNat (a := K.identityPageTables) (n := 4096 * n) (by omega)
  generalize K.identityPageTables + UInt32.ofNat (4096 * n) = t at *
  have halign : t.toNat % 4096 = 0 := by omega
  refine ⟨_, h.install _ _ halign ?_ (by omega) (fun j => isUser_supervisor ?_) (by omega)
    (present_supervisor halign).2 (present_supervisor halign).1 (fun k hk hk' => by omega)
    (fun k _ hk' => by omega) (fun _ => by omega)⟩
  · rw [ht]
    exact h.identity_free n le_rfl hn
  · rw [Nat.mul_comm]
    exact toNat_ofNat_page _

/-- The loop over the identity tables. -/
theorem booting_identity (h : Booting K m role 0 0) : ∀ n ≤ 32, ∃ role',
    Booting K ((List.range n).foldl (identityRound K) m) role' n 0
  | 0, _ => ⟨role, h⟩
  | n + 1, hn => by
    obtain ⟨role', h'⟩ := booting_identity h n (by omega)
    rw [List.range_succ, List.foldl_append, List.foldl_cons, List.foldl_nil]
    exact booting_identity_step h' hn

/-- The next free table of the framebuffer is put into the directory. -/
theorem booting_slot {slots i : ℕ} {t : UInt32} (h : Booting K m role 32 slots) (hi : i < 1024)
    (hslots : slots < 8) (ht : t = K.framebufferPageTables + UInt32.ofNat (4096 * slots)) :
    ∃ role', Booting K
      (setEntry (zeroPageTable m t) K.kernelPageDirectory i (t ||| pagePresent ||| pageWritable))
        role' 32 (slots + 1) ∧
      t.toNat = K.framebufferPageTables.toNat + 4096 * slots ∧
      role (t.toNat / 4096) = .other := by
  have hb := K.bounds
  obtain ⟨-, -, -, hd, -, -⟩ := K.disjoint
  have hfb := K.framebuffer_aligned
  have hid := K.identity_aligned
  have hlt := K.kernelEnd.toNat_lt
  have htn := Word.toNat_add_ofNat (a := K.framebufferPageTables) (n := 4096 * slots) (by omega)
  rw [← ht] at htn
  have htalign : t.toNat % 4096 = 0 := by omega
  have hent := present_supervisor htalign
  have hother : role (t.toNat / 4096) = .other := by
    rw [htn]
    exact h.slot_free slots le_rfl hslots
  exact ⟨_, h.install 32 (slots + 1) (c := fun _ => 0) htalign hother (by omega)
    (fun _ => by decide) hi hent.2 hent.1 (fun k hk hk' => by omega) (fun k hk hk' => by omega)
    (fun _ => .inl (by omega)), htn, hother⟩

/-- A round of the loop over the framebuffer fills entries of a table. -/
theorem booting_fill {slots i j n : ℕ} {f : ℕ → UInt32} (h : Booting K m role 32 slots)
    (hi : i < 1024) (hp : isPresent (entry m K.kernelPageDirectory i) = true) (hn : j + n ≤ 1024)
    (hf : ∀ l, isUser (f l) = false) :
    Booting K (m.storeWords ((pageOf (entry m K.kernelPageDirectory i)).toNat + 4 * j) n f) role 32
      slots := by
  have hrole := h.tables.table i hi hp
  have halign := pageOf_aligned (entry m K.kernelPageDirectory i)
  generalize pageOf (entry m K.kernelPageDirectory i) = t at *
  have hdir : ∀ a, role (a / 4096) = .kernelDirectory →
      m.storeWords (t.toNat + 4 * j) n f a = m a := by
    intro a ha
    have := page_ne_of_role ha hrole (by simp)
    exact Mem.storeWords_of_not_mem _ _ (by omega)
  refine ⟨h.tables.congr hdir fun _ _ _ => rfl,
    h.plain.storeWords halign (by rw [hrole]; rfl) hn fun l _ hu => ?_, h.below, h.identity_free,
    h.slot_free, fun h0 => ?_⟩
  · rw [hf l] at hu
    cases hu
  · rw [entry_of_page K.directory_aligned (by omega) fun a ha => hdir a (ha ▸ h.tables.dir_role)]
    exact h.first h0

/-- The loop over the framebuffer. -/
theorem booting_framebuffer : ∀ (n : ℕ) {m : Mem} {role : ℕ → Role} (address stop : UInt32)
    (slots : ℕ), address.toNat % 4096 = 0 → Booting K m role 32 slots →
    ∃ role' slots', Booting K (mapFramebuffer K n m address stop slots) role' 32 slots'
  | 0, _, role, _, _, slots, _, h => ⟨role, slots, h⟩
  | n + 1, m, role, address, stop, slots, halign, h => by
    have hi := directoryIndex_lt address
    have hj := tableIndex_lt address
    have hword : ∀ l : ℕ, (address + UInt32.ofNat (4096 * l)).toNat % 4096 = 0 := fun l => by
      rw [UInt32.toNat_add, UInt32.toNat_ofNat']
      omega
    have hcount : tableIndex address + min (pageEntries - tableIndex address)
        ((stop.toNat - address.toNat) / 4096) ≤ 1024 := by
      unfold pageEntries
      omega
    unfold mapFramebuffer
    dsimp only
    split_ifs with hstop hp hslots
    · exact ⟨role, slots, h⟩
    · -- the table is there
      exact booting_framebuffer n _ stop slots (hword _)
        (booting_fill h hi hp hcount fun l => isUser_supervisor (hword l))
    · exact ⟨role, slots, h⟩
    · -- the next free table is put into the directory
      have hslots' : slots < 8 := by
        unfold framebufferPageTableCount at hslots
        omega
      obtain ⟨role', h', -, -⟩ := booting_slot h hi hslots' rfl
      refine booting_framebuffer n _ stop (slots + 1) (hword _)
        (booting_fill h' hi ?_ hcount fun l => isUser_supervisor (hword l))
      rw [entry_setEntry K.directory_aligned, if_pos rfl, isPresent_or, isPresent_or]
      simp [show isPresent pagePresent = true from rfl]

end Paging

/-- The kernel's structure and its directory, after `paging_initialize`. -/
structure KernelOk (K : KernelStatics) (m : Mem) (role : ℕ → Role) : Prop extends
    KernelTables K m role where
  dir_eq : m.load32 (packedLayout.directoryAt K.kernelSpace) = K.kernelPageDirectory
  first : isPresent (entry m K.kernelPageDirectory 0) = true

/-- The last write of `paging_initialize` is to the structure of the kernel, which lies in another
page than the tables. -/
theorem Booting.store_frame {slots : ℕ} (h : Booting K m role 32 slots) {a : ℕ}
    (ha : role (a / 4096) ≠ .kernelData) :
    m.store32 (packedLayout.directoryAt K.kernelSpace) K.kernelPageDirectory a = m a := by
  have hcell : role (K.kernelSpace.toNat / 4096) = .kernelData := h.tables.cell_role 0 (by omega)
  have hne : a / 4096 ≠ K.kernelSpace.toNat / 4096 := fun h0 => ha (h0 ▸ hcell)
  have := K.space_aligned
  exact Mem.store32_of_not_mem _ _ (by
    change a < K.kernelSpace.toNat ∨ K.kernelSpace.toNat + 4 ≤ a
    omega)

theorem Booting.kernelOk {slots : ℕ} (h : Booting K m role 32 slots) :
    KernelOk K (m.store32 (packedLayout.directoryAt K.kernelSpace) K.kernelPageDirectory) role ∧
    Marks (m.store32 (packedLayout.directoryAt K.kernelSpace) K.kernelPageDirectory) role
      (fun _ _ => False) := by
  have hdir : ∀ a, role (a / 4096) = .kernelDirectory →
      m.store32 (packedLayout.directoryAt K.kernelSpace) K.kernelPageDirectory a = m a :=
    fun a ha => h.store_frame (by rw [ha]; simp)
  refine ⟨⟨h.tables.congr hdir fun _ _ _ => rfl, Mem.load32_store32_self .., ?_⟩,
    h.plain.congr (fun a ha => h.store_frame fun h0 => ha (by rw [h0]; rfl)) fun _ _ => id⟩
  rw [entry_of_page K.directory_aligned (by omega) fun a ha => hdir a (ha ▸ h.tables.dir_role)]
  exact h.first (by omega)

/-- **After `paging_initialize`**, wherever the framebuffer is: the kernel's directory has its
tables, no entry is for user mode, and all these pages are below the end of the kernel. -/
theorem pagingInitialize_ok (K : KernelStatics) (m : Mem) (pmm : Pmm) (physical size : UInt32) :
    ∃ role, KernelOk K (Paging.pagingInitialize packedLayout K m pmm physical size).mem role ∧
      Marks (Paging.pagingInitialize packedLayout K m pmm physical size).mem role
        (fun _ _ => False) ∧
      ∀ k, role k ≠ .other → k * 4096 < K.kernelEnd.toNat ∧ (role k).owner = none := by
  obtain ⟨role, h⟩ := Paging.booting_identity (booting_empty K m) 32 le_rfl
  have hall : ∃ role slots m', Booting K m' role 32 slots ∧
      (Paging.pagingInitialize packedLayout K m pmm physical size).mem
        = m'.store32 (packedLayout.directoryAt K.kernelSpace) K.kernelPageDirectory := by
    unfold Paging.pagingInitialize Paging.mapIdentity
    split_ifs
    · obtain ⟨role', slots', h'⟩ := Paging.booting_framebuffer
        (((pageOf (physical + size + pageSize - 1)).toNat - (pageOf physical).toNat) / 4096)
        (pageOf physical) (pageOf (physical + size + pageSize - 1)) 0 (pageOf_aligned physical) h
      exact ⟨role', slots', _, h', rfl⟩
    · exact ⟨role, 0, _, h, rfl⟩
  obtain ⟨role', slots, m', h', heq⟩ := hall
  rw [heq]
  exact ⟨role', h'.kernelOk.1, h'.kernelOk.2, h'.below⟩

end Initialize

end MyOS
