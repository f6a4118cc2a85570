import MyOS.Paging.Basic
import MyOS.Pmm.Tracks

/-!
# What an address space owns

Every page of the physical memory has a `Role`: it is the structure, the directory or a table of an
address space, it belongs to the kernel, or it is used for something else. `Owns` says that the
words of a `struct address_space` agree with these roles, and `Linked` that the directory refers to
the tables that the structure names. A write to a page with another role is not seen (`Owns.congr`),
and a new table takes a page that had none.
-/

namespace MyOS

open Function

/-! ### Entries -/

section Entries

variable {t f e : UInt32}

theorem pageOf_toNat (e : UInt32) : (pageOf e).toNat = e.toNat / 4096 * 4096 :=
  Word.toNat_and_not_mask (k := 12) e rfl

theorem pageOf_aligned (e : UInt32) : (pageOf e).toNat % 4096 = 0 := by
  rw [pageOf_toNat]
  omega

theorem pageOf_or (e : UInt32) (hf : f.toNat < 4096) : pageOf (e ||| f) = pageOf e := by
  apply UInt32.toNat_inj.mp
  have hdiv : (e.toNat ||| f.toNat) / 2 ^ 12 = e.toNat / 2 ^ 12 := by
    rw [← Nat.shiftRight_eq_div_pow, Nat.shiftRight_or_distrib, Nat.shiftRight_eq_div_pow,
      Nat.shiftRight_eq_div_pow, Nat.div_eq_of_lt hf, Nat.or_zero]
  rw [pageOf_toNat, pageOf_toNat, UInt32.toNat_or]
  exact congrArg (· * 4096) hdiv

theorem pageOf_of_aligned (ht : t.toNat % 4096 = 0) : pageOf t = t := by
  apply UInt32.toNat_inj.mp
  rw [pageOf_toNat]
  omega

theorem isPresent_eq (e : UInt32) : isPresent e = e.toNat.testBit 0 :=
  WordBitmap.and_mask_bne_zero e 0

theorem isUser_eq (e : UInt32) : isUser e = e.toNat.testBit 2 :=
  WordBitmap.and_mask_bne_zero e 2

theorem isPresent_or (e f : UInt32) : isPresent (e ||| f) = (isPresent e || isPresent f) := by
  rw [isPresent_eq, isPresent_eq, isPresent_eq, UInt32.toNat_or, Nat.testBit_or]

theorem isUser_or (e f : UInt32) : isUser (e ||| f) = (isUser e || isUser f) := by
  rw [isUser_eq, isUser_eq, isUser_eq, UInt32.toNat_or, Nat.testBit_or]

theorem isUser_and (e f : UInt32) : isUser (e &&& f) = (isUser e && isUser f) := by
  rw [isUser_eq, isUser_eq, isUser_eq, UInt32.toNat_and, Nat.testBit_and]

/-- A present entry is an odd number, so not the address of a page. -/
theorem isPresent_iff : isPresent e = true ↔ e.toNat % 2 = 1 := by
  rw [isPresent_eq, Nat.testBit_zero, decide_eq_true_iff]

/-- The address of a page has no flags. -/
theorem isUser_of_aligned (ht : t.toNat % 4096 = 0) : isUser t = false := by
  rw [isUser_eq, Nat.testBit_eq_decide_div_mod_eq]
  exact decide_eq_false (by omega)

theorem directoryIndex_eq (v : UInt32) : directoryIndex v = v.toNat / 2 ^ 22 := by
  unfold directoryIndex
  rw [UInt32.toNat_shiftRight, Nat.shiftRight_eq_div_pow]
  rfl

theorem tableIndex_eq (v : UInt32) : tableIndex v = v.toNat / 2 ^ 12 % 2 ^ 10 := by
  unfold tableIndex
  rw [Word.toNat_and_mask (k := 10) _ rfl, UInt32.toNat_shiftRight, Nat.shiftRight_eq_div_pow]
  rfl

theorem directoryIndex_lt (v : UInt32) : directoryIndex v < 1024 := by
  have := v.toNat_lt
  rw [directoryIndex_eq]
  omega

theorem tableIndex_lt (v : UInt32) : tableIndex v < 1024 := by
  rw [tableIndex_eq]
  omega

/-- The offset in the page does not matter for the two indices. -/
theorem directoryIndex_pageOf (v : UInt32) : directoryIndex (pageOf v) = directoryIndex v := by
  rw [directoryIndex_eq, directoryIndex_eq, pageOf_toNat]
  omega

theorem tableIndex_pageOf (v : UInt32) : tableIndex (pageOf v) = tableIndex v := by
  rw [tableIndex_eq, tableIndex_eq, pageOf_toNat]
  omega

/-- The entry for a page, as the directory and a table give it: 0 where there is no table. -/
def lookup (m : Mem) (d : UInt32) (i j : ℕ) : UInt32 :=
  if isPresent (entry m d i) then entry m (pageOf (entry m d i)) j else 0

end Entries

/-! ### The use of pages -/

/-- What a page is used for. -/
inductive Role
  | other
  | kernelData
  | kernelDirectory
  | kernelTable (i : ℕ)
  | struct (space : UInt32)
  | directory (space : UInt32)
  | table (space : UInt32) (i : ℕ)
deriving DecidableEq

/-- The address space that a page belongs to. -/
def Role.owner : Role → Option UInt32
  | .struct space => some space
  | .directory space => some space
  | .table space _ => some space
  | _ => none

theorem Role.owner_eq_some {r : Role} {s : UInt32} :
    r.owner = some s ↔ r = .struct s ∨ r = .directory s ∨ ∃ i, r = .table s i := by
  cases r <;> simp [Role.owner]

/-- An aligned word lies in one page. -/
theorem load32_of_page {m m' : Mem} {a : ℕ} (ha : a % 4 = 0)
    (h : ∀ k, k / 4096 = a / 4096 → m' k = m k) : m'.load32 a = m.load32 a :=
  Mem.load32_congr fun k hk => h _ (by omega)

/-- The words of a table lie in its page. -/
theorem entry_page {t : UInt32} {j : ℕ} (ht : t.toNat % 4096 = 0) (hj : j < 1024) :
    (t.toNat + 4 * j) / 4096 = t.toNat / 4096 ∧ (t.toNat + 4 * j) % 4 = 0 := by
  omega

theorem entry_of_page {m m' : Mem} {t : UInt32} {j : ℕ} (ht : t.toNat % 4096 = 0) (hj : j < 1024)
    (h : ∀ k, k / 4096 = t.toNat / 4096 → m' k = m k) : entry m' t j = entry m t j := by
  obtain ⟨hpage, halign⟩ := entry_page ht hj
  exact load32_of_page halign fun k hk => h k (hk.trans hpage)

/-- Writing one entry of a table. -/
theorem entry_setEntry {m : Mem} {t v : UInt32} {i j : ℕ} (ht : t.toNat % 4096 = 0) :
    entry (setEntry m t i v) t j = if j = i then v else entry m t j := by
  by_cases hji : j = i
  · rw [if_pos hji, hji]
    exact Mem.load32_store32_self ..
  · rw [if_neg hji]
    exact Mem.load32_store32_of_ne m v (by omega) (by omega) (by omega)

/-- It changes no other page. -/
theorem setEntry_of_page {m : Mem} {t v : UInt32} {i k : ℕ} (ht : t.toNat % 4096 = 0)
    (hi : i < 1024) (hk : k / 4096 ≠ t.toNat / 4096) : setEntry m t i v k = m k :=
  Mem.store32_of_not_mem m v (by omega)

/-- The structure at `s`, whose directory is at `d`: its first 1024 words lie in pages of their own,
and the tables that it names belong to it too. These are all the pages of the space `s`. -/
structure Owns (L : SpaceLayout) (m : Mem) (role : ℕ → Role) (s d : UInt32) : Prop where
  space_aligned : s.toNat % 4096 = 0
  space_ne : s ≠ 0
  cell_role : ∀ j < 1024, role ((L.base s + 4 * j) / 4096) = .struct s
  struct_iff : ∀ k < 2 ^ 20, role k = .struct s ↔ k = s.toNat / 4096
  dir_aligned : d.toNat % 4096 = 0
  dir_ne : d ≠ 0
  dir_iff : ∀ k, role k = .directory s ↔ k = d.toNat / 4096
  dir_eq : m.load32 (L.directoryAt s) = d
  table_aligned : ∀ i < 1023, (m.load32 (L.ownedAt s i)).toNat % 4096 = 0
  table_iff : ∀ k i, role k = .table s i ↔
    i < 1023 ∧ m.load32 (L.ownedAt s i) ≠ 0 ∧ k = (m.load32 (L.ownedAt s i)).toNat / 4096

/-- The directory refers to the tables that the structure names. -/
def Linked (L : SpaceLayout) (m : Mem) (s d : UInt32) : Prop :=
  ∀ i < 1023, m.load32 (L.ownedAt s i) ≠ 0 →
    isPresent (entry m d i) = true ∧ pageOf (entry m d i) = m.load32 (L.ownedAt s i)

/-- The last word of the structure, `owned_tables[1023]`, lies behind its page: it is the first word
of the directory, or a word of the space's own. It is not the address of a page. -/
structure Spill (L : SpaceLayout) (m : Mem) (role : ℕ → Role) (s d : UInt32) : Prop where
  place : L.ownedAt s 1023 = d.toNat ∨ role (L.ownedAt s 1023 / 4096) = .struct s
  value : m.load32 (L.ownedAt s 1023) = 0 ∨ (m.load32 (L.ownedAt s 1023)).toNat % 4096 ≠ 0

section Owned

variable {L : SpaceLayout} {m m' : Mem} {role role' : ℕ → Role} {s d t e : UInt32} {i j k a : ℕ}

namespace Owns

variable (ho : Owns L m role s d)
include ho

theorem base_aligned : L.base s % 4 = 0 := by
  have := ho.space_aligned
  exact L.aligned s (by omega)

theorem owned_aligned (i : ℕ) : L.ownedAt s i % 4 = 0 := by
  have := ho.base_aligned
  unfold SpaceLayout.ownedAt
  omega

theorem owned_role (hi : i < 1023) : role (L.ownedAt s i / 4096) = .struct s := by
  have := ho.cell_role (i + 1) (by omega)
  rwa [show L.base s + 4 * (i + 1) = L.ownedAt s i by unfold SpaceLayout.ownedAt; omega] at this

theorem directoryAt_role : role (L.directoryAt s / 4096) = .struct s :=
  ho.cell_role 0 (by omega)

theorem dir_role : role (d.toNat / 4096) = .directory s :=
  (ho.dir_iff _).mpr rfl

theorem space_role : role (s.toNat / 4096) = .struct s := by
  have := s.toNat_lt
  exact (ho.struct_iff _ (by omega)).mpr rfl

/-- A table that the structure names. -/
theorem table_role (hi : i < 1023) (h : m.load32 (L.ownedAt s i) ≠ 0) :
    role ((m.load32 (L.ownedAt s i)).toNat / 4096) = .table s i :=
  (ho.table_iff _ i).mpr ⟨hi, h, rfl⟩

/-- What the space owns is read from the first 1024 words of its structure. -/
theorem congr_cells (hcell : ∀ j < 1024, m'.load32 (L.base s + 4 * j) = m.load32 (L.base s + 4 * j))
    (hrole : ∀ k, (role k).owner = some s ∨ (role' k).owner = some s → role' k = role k) :
    Owns L m' role' s d := by
  have howned : ∀ i < 1023, m'.load32 (L.ownedAt s i) = m.load32 (L.ownedAt s i) := fun i hi => by
    have := hcell (i + 1) (by omega)
    rwa [show L.base s + 4 * (i + 1) = L.ownedAt s i by unfold SpaceLayout.ownedAt; omega] at this
  have hiff : ∀ k r, r.owner = some s → (role' k = r ↔ role k = r) := by
    intro k r hr
    constructor <;> intro h
    · rw [← hrole k (.inr (h ▸ hr))]
      exact h
    · rw [hrole k (.inl (h ▸ hr))]
      exact h
  exact { ho with
      cell_role := fun j hj => (hiff _ _ rfl).mpr (ho.cell_role j hj)
      struct_iff := fun k hk => (hiff k _ rfl).trans (ho.struct_iff k hk)
      dir_iff := fun k => (hiff k _ rfl).trans (ho.dir_iff k)
      dir_eq := (hcell 0 (by omega)).trans ho.dir_eq
      table_aligned := fun i hi => by
        rw [howned i hi]
        exact ho.table_aligned i hi
      table_iff := fun k i => by
        rw [hiff k _ rfl, ho.table_iff k i]
        exact and_congr_right fun hi => by rw [howned i hi] }

theorem congr (hm : ∀ k, role (k / 4096) = .struct s → m' k = m k)
    (hrole : ∀ k, (role k).owner = some s ∨ (role' k).owner = some s → role' k = role k) :
    Owns L m' role' s d := by
  refine ho.congr_cells
    (fun j hj => load32_of_page ?_ fun k hk => hm k (hk ▸ ho.cell_role j hj)) hrole
  have := ho.base_aligned
  omega

/-- The structure gets a table at a page that was not in use. -/
theorem setOwned (hi : i < 1023) (h0 : m.load32 (L.ownedAt s i) = 0)
    (ht : t.toNat % 4096 = 0) (hne : t ≠ 0) (hother : role (t.toNat / 4096) = .other) :
    Owns L (m.store32 (L.ownedAt s i) t) (update role (t.toNat / 4096) (.table s i)) s d := by
  have hself : (m.store32 (L.ownedAt s i) t).load32 (L.ownedAt s i) = t :=
    Mem.load32_store32_self ..
  have hold : ∀ a, a % 4 = 0 → L.ownedAt s i ≠ a →
      (m.store32 (L.ownedAt s i) t).load32 a = m.load32 a := fun a ha hne =>
    Mem.load32_store32_of_ne m t (ho.owned_aligned i) ha hne
  have howned : ∀ i' ≠ i, (m.store32 (L.ownedAt s i) t).load32 (L.ownedAt s i')
      = m.load32 (L.ownedAt s i') := fun i' hi' =>
    hold _ (ho.owned_aligned i') (by unfold SpaceLayout.ownedAt; omega)
  have hrole : ∀ k r, r ≠ .table s i → r ≠ .other →
      (update role (t.toNat / 4096) (.table s i) k = r ↔ role k = r) := by
    intro k r hr hr'
    by_cases hk : k = t.toNat / 4096
    · rw [hk, update_self, hother]
      exact iff_of_false hr.symm hr'.symm
    · rw [update_of_ne hk]
  exact { ho with
      cell_role := fun j hj => (hrole _ _ (by simp) (by simp)).mpr (ho.cell_role j hj)
      struct_iff := fun k hk => (hrole k _ (by simp) (by simp)).trans (ho.struct_iff k hk)
      dir_iff := fun k => (hrole k _ (by simp) (by simp)).trans (ho.dir_iff k)
      dir_eq := (hold _ ho.base_aligned (by unfold SpaceLayout.ownedAt; omega)).trans ho.dir_eq
      table_aligned := fun i' hi' => by
        by_cases hii : i' = i
        · rw [hii, hself]
          exact ht
        · rw [howned i' hii]
          exact ho.table_aligned i' hi'
      table_iff := fun k i' => by
        by_cases hii : i' = i
        · subst hii
          rw [hself]
          by_cases hk : k = t.toNat / 4096
          · rw [hk, update_self]
            exact iff_of_true rfl ⟨hi, hne, rfl⟩
          · -- the page was not the old table either: there was none
            rw [update_of_ne hk, ho.table_iff]
            exact iff_of_false (fun h => h.2.1 h0) fun h => hk h.2.2
        · rw [howned i' hii, hrole k _ (by simp [hii]) (by simp)]
          exact ho.table_iff k i' }

end Owns

theorem page_ne_of_role {r r' : Role} {k k' : ℕ} (h : role k = r) (h' : role k' = r')
    (hne : r ≠ r') : k ≠ k' := by
  rintro rfl
  exact hne (h.symm.trans h')

/-- The structure and the directory are in different pages. -/
theorem Owns.owned_ne_entry (ho : Owns L m role s d) (hi : i < 1023) (hj : j < 1024) :
    L.ownedAt s i ≠ d.toNat + 4 * j := by
  intro heq
  have := page_ne_of_role (ho.owned_role hi) ho.dir_role (by simp)
  rw [heq, (entry_page ho.dir_aligned hj).1] at this
  exact this rfl

/-- A table of a page of its own is filled and becomes the table `i` of the space `s`. -/
def installTable (L : SpaceLayout) (m : Mem) (s d : UInt32) (i : ℕ) (t : UInt32) (c : ℕ → UInt32)
    (e : UInt32) : Mem :=
  setEntry ((m.storeWords t.toNat pageEntries c).store32 (L.ownedAt s i) t) d i e

section Install

variable {c : ℕ → UInt32}

/-- It writes in three pages. -/
theorem installTable_of_page (hd : d.toNat % 4096 = 0) (ht : t.toNat % 4096 = 0)
    (ha : L.ownedAt s i % 4 = 0) (hi : i < 1024) (hk : k / 4096 ≠ d.toNat / 4096)
    (hk' : k / 4096 ≠ t.toNat / 4096) (hk'' : k / 4096 ≠ L.ownedAt s i / 4096) :
    installTable L m s d i t c e k = m k := by
  unfold installTable pageEntries
  rw [setEntry_of_page hd hi hk, Mem.store32_of_not_mem _ _ (by omega),
    Mem.storeWords_of_not_mem _ _ (by omega)]

section

variable (ho : Owns L m role s d) (hi : i < 1023)
include ho hi

/-- The words of the structure afterwards. -/
theorem Owns.load32_installTable (halign : a % 4 = 0)
    (ha : role (a / 4096) = .struct s) (hother : role (t.toNat / 4096) = .other)
    (ht : t.toNat % 4096 = 0) : (installTable L m s d i t c e).load32 a
      = if a = L.ownedAt s i then t else m.load32 a := by
  have ht' := page_ne_of_role ha hother (by simp)
  have hd' := page_ne_of_role ha ho.dir_role (by simp)
  have hd := entry_page ho.dir_aligned (show i < 1024 by omega)
  unfold installTable setEntry pageEntries
  rw [Mem.load32_store32_of_ne _ _ hd.2 halign (by omega)]
  by_cases heq : a = L.ownedAt s i
  · rw [if_pos heq, heq, Mem.load32_store32_self]
  · rw [if_neg heq, Mem.load32_store32_of_ne _ _ (ho.owned_aligned i) halign (Ne.symm heq),
      Mem.load32_storeWords_of_disjoint _ _ (by omega)]

/-- The directory afterwards. -/
theorem Owns.entry_installTable (hj : j < 1024)
    (hother : role (t.toNat / 4096) = .other) (ht : t.toNat % 4096 = 0) :
    entry (installTable L m s d i t c e) d j = if j = i then e else entry m d j := by
  have ht' := page_ne_of_role ho.dir_role hother (by simp)
  have hcell := page_ne_of_role ho.dir_role (ho.owned_role hi) (by simp)
  have halign := ho.owned_aligned i
  unfold installTable pageEntries
  rw [entry_setEntry ho.dir_aligned,
    entry_of_page ho.dir_aligned hj fun k hk => Mem.store32_of_not_mem _ _ (by omega),
    entry_of_page ho.dir_aligned hj fun k hk => Mem.storeWords_of_not_mem _ _ (by omega)]

/-- The new table. -/
theorem Owns.entry_installTable_self (hj : j < 1024)
    (hother : role (t.toNat / 4096) = .other) (ht : t.toNat % 4096 = 0) :
    entry (installTable L m s d i t c e) t j = c j := by
  have ht' := page_ne_of_role ho.dir_role hother (by simp)
  have hcell := page_ne_of_role (ho.owned_role hi) hother (by simp)
  have halign := ho.owned_aligned i
  unfold installTable
  rw [entry_of_page ht hj fun k hk => setEntry_of_page ho.dir_aligned (by omega) (by omega),
    entry_of_page ht hj fun k hk => Mem.store32_of_not_mem _ _ (by omega)]
  exact Mem.load32_storeWords _ _ hj

/-- **The space gets a table**: what it owns afterwards. -/
theorem Owns.installTable
    (h0 : m.load32 (L.ownedAt s i) = 0) (ht : t.toNat % 4096 = 0) (hne : t ≠ 0)
    (hother : role (t.toNat / 4096) = .other) :
    Owns L (installTable L m s d i t c e) (update role (t.toNat / 4096) (.table s i)) s d := by
  have hpage : ∀ k, role (k / 4096) = .struct s → m.storeWords t.toNat pageEntries c k = m k := by
    intro k hk
    have := page_ne_of_role hk hother (by simp)
    exact Mem.storeWords_of_not_mem _ _ (by unfold pageEntries; omega)
  have h1 : Owns L (m.storeWords t.toNat pageEntries c) role s d := ho.congr hpage fun _ _ => rfl
  have h0' : (m.storeWords t.toNat pageEntries c).load32 (L.ownedAt s i) = 0 :=
    (load32_of_page (ho.owned_aligned i) fun k hk => hpage k (hk ▸ ho.owned_role hi)).trans h0
  have h2 := h1.setOwned hi h0' ht hne hother
  refine h2.congr (fun k hk => ?_) fun _ _ => rfl
  exact setEntry_of_page ho.dir_aligned (by omega) (page_ne_of_role hk h2.dir_role (by simp))

end

theorem Linked.installTable (hl : Linked L m s d) (ho : Owns L m role s d) (hi : i < 1023)
    (ht : t.toNat % 4096 = 0) (hother : role (t.toNat / 4096) = .other)
    (hpresent : isPresent e = true) (hpage : pageOf e = t) :
    Linked L (installTable L m s d i t c e) s d := by
  intro i' hi' h'
  rw [ho.load32_installTable hi (ho.owned_aligned i') (ho.owned_role hi') hother ht] at h' ⊢
  rw [ho.entry_installTable hi (by omega) hother ht]
  have hinj : L.ownedAt s i' = L.ownedAt s i ↔ i' = i := by
    unfold SpaceLayout.ownedAt
    omega
  by_cases hii : i' = i
  · rw [if_pos hii, if_pos (hinj.mpr hii)]
    exact ⟨hpresent, hpage⟩
  · rw [if_neg (mt hinj.mp hii)] at h' ⊢
    rw [if_neg hii]
    exact hl i' hi' h'

theorem Spill.installTable (hs : Spill L m role s d) (ho : Owns L m role s d) (hi : i < 1023)
    (ht : t.toNat % 4096 = 0) (hother : role (t.toNat / 4096) = .other)
    (hpresent : isPresent e = true) :
    Spill L (installTable L m s d i t c e) (update role (t.toNat / 4096) (.table s i)) s d := by
  refine ⟨hs.place.imp_right fun hr => ?_, ?_⟩
  · rwa [update_of_ne (page_ne_of_role hr hother (by simp))]
  rcases hs.place with heq | hr
  · -- the word is the first one of the directory
    have h0 := ho.entry_installTable (c := c) (e := e) hi (show 0 < 1024 by omega) hother ht
    unfold entry at h0
    rw [Nat.mul_zero, Nat.add_zero, ← heq] at h0
    rw [h0]
    split
    · have := isPresent_iff.mp hpresent
      exact .inr (by omega)
    · exact hs.value
  · have hne : L.ownedAt s 1023 ≠ L.ownedAt s i := by
      unfold SpaceLayout.ownedAt
      omega
    rw [ho.load32_installTable hi (ho.owned_aligned 1023) hr hother ht, if_neg hne]
    exact hs.value

end Install

/-! ### Writes to the directory and to tables -/

theorem Linked.congr (hl : Linked L m s d) (ho : Owns L m role s d)
    (hm : ∀ k, role (k / 4096) = .struct s ∨ role (k / 4096) = .directory s → m' k = m k) :
    Linked L m' s d := by
  intro i hi
  rw [load32_of_page (ho.owned_aligned i) fun k hk => hm k (.inl (hk ▸ ho.owned_role hi)),
    entry_of_page ho.dir_aligned (by omega) fun k hk => hm k (.inr (hk ▸ ho.dir_role))]
  exact hl i hi

theorem Spill.congr (hs : Spill L m role s d) (ho : Owns L m role s d)
    (hm : ∀ k, role (k / 4096) = .struct s ∨ role (k / 4096) = .directory s → m' k = m k)
    (hrole : ∀ k, (role k).owner = some s → role' k = role k) : Spill L m' role' s d := by
  refine ⟨hs.place.imp_right fun hr => (hrole _ (hr ▸ rfl)).trans hr, ?_⟩
  rw [load32_of_page (ho.owned_aligned 1023) fun k hk => hm k ?_]
  · exact hs.value
  rcases hs.place with heq | hr
  · exact .inr (by rw [hk, heq]; exact ho.dir_role)
  · exact .inl (hk ▸ hr)

/-- The flags of an entry of the directory change. -/
theorem Linked.setEntry (hl : Linked L m s d) (ho : Owns L m role s d) (hi : i < 1024)
    (hpresent : isPresent e = true) (hpage : pageOf e = pageOf (entry m d i)) :
    Linked L (setEntry m d i e) s d := by
  intro i' hi' h'
  have howned : (MyOS.setEntry m d i e).load32 (L.ownedAt s i') = m.load32 (L.ownedAt s i') :=
    Mem.load32_store32_of_ne m e (entry_page ho.dir_aligned hi).2 (ho.owned_aligned i')
      (ho.owned_ne_entry hi' hi).symm
  rw [howned] at h' ⊢
  rw [entry_setEntry ho.dir_aligned]
  by_cases hii : i' = i
  · subst hii
    rw [if_pos rfl]
    exact ⟨hpresent, hpage.trans (hl i' hi' h').2⟩
  · rw [if_neg hii]
    exact hl i' hi' h'

theorem Spill.setEntry (hs : Spill L m role s d) (ho : Owns L m role s d) (hi : i < 1024)
    (hpresent : isPresent e = true) : Spill L (setEntry m d i e) role s d := by
  refine ⟨hs.place, ?_⟩
  rcases hs.place with heq | hr
  · have h0 := entry_setEntry (m := m) (v := e) (i := i) (j := 0) ho.dir_aligned
    unfold entry at h0
    rw [Nat.mul_zero, Nat.add_zero, ← heq] at h0
    rw [h0]
    split
    · have := isPresent_iff.mp hpresent
      exact .inr (by omega)
    · exact hs.value
  · have hne := page_ne_of_role hr ho.dir_role (by simp)
    have := entry_page ho.dir_aligned hi
    unfold MyOS.setEntry
    rw [Mem.load32_store32_of_ne _ _ this.2 (ho.owned_aligned 1023) (by omega)]
    exact hs.value

end Owned

end MyOS
