import Mathlib.Data.List.FinRange
import Mathlib.Logic.Function.Basic
import Mathlib.Data.Nat.Notation

/-!
# Write-back block caches

A cache of `n` slots in front of a disk `K → V`. The *view* of a cache over a disk is the block
store the two implement: the data of the valid slot that holds a sector, else the disk's. A cache is
*coherent* with its disk when no sector sits in two valid slots and every clean valid slot agrees
with the disk. The moves of a write-back cache keep coherence:

* `Coherent.writeback`, `Coherent.failedWrite`, `Coherent.drop`, `Coherent.load` keep the view;
* `Coherent.markDirty`, `Coherent.store`, the two halves of a cached write, update the view at the
  written sector and nowhere else.

When no valid slot is dirty the view is the disk itself (`view_of_settled`). `Sourced` tracks where
the values in slots and on disk come from.
-/

namespace BlockCache

open Function

/-- One cache slot. -/
structure Entry (K V : Type) where
  valid : Bool
  dirty : Bool
  sector : K
  data : V

variable {n : ℕ} {K V : Type}

/-- Slot `i` is valid and holds sector `k`. -/
def Holds (cache : Fin n → Entry K V) (i : Fin n) (k : K) : Prop :=
  (cache i).valid = true ∧ (cache i).sector = k

/-- No valid slot is waiting to be written back. -/
def Settled (cache : Fin n → Entry K V) : Prop :=
  ∀ i, (cache i).valid = true → (cache i).dirty = false

/-- Slot `i` may be overwritten without losing data. -/
def Discardable (cache : Fin n → Entry K V) (i : Fin n) : Prop :=
  (cache i).valid = true → (cache i).dirty = false

/-- Coherence of a cache with its disk: a sector is in at most one valid slot, and a clean valid
slot agrees with the disk. -/
structure Coherent (cache : Fin n → Entry K V) (disk : K → V) : Prop where
  unique : ∀ i j k, Holds cache i k → Holds cache j k → i = j
  clean : ∀ i, (cache i).valid = true → (cache i).dirty = false →
    (cache i).data = disk (cache i).sector

/-- Every value on disk or in a valid slot satisfies `S` at its sector. -/
structure Sourced (S : K → V → Prop) (cache : Fin n → Entry K V) (disk : K → V) : Prop where
  disk : ∀ k, S k (disk k)
  slots : ∀ i, (cache i).valid = true → S (cache i).sector (cache i).data

theorem Coherent.empty {cache : Fin n → Entry K V} (h : ∀ i, (cache i).valid = false)
    (disk : K → V) : Coherent cache disk where
  unique := fun i _ _ hi _ => absurd hi.1 (by rw [h i]; exact Bool.false_ne_true)
  clean := fun i hi _ => absurd hi (by rw [h i]; exact Bool.false_ne_true)

section View

variable [DecidableEq K]

/-- The first valid slot holding `k`, in slot order. -/
def holder (cache : Fin n → Entry K V) (k : K) : Option (Fin n) :=
  (List.finRange n).find? (fun i => (cache i).valid && (cache i).sector == k)

/-- The block store a cache and its disk implement. -/
def view (cache : Fin n → Entry K V) (disk : K → V) (k : K) : V :=
  match holder cache k with
  | some i => (cache i).data
  | none => disk k

variable {k : K} {i : Fin n} {cache : Fin n → Entry K V}

theorem holds_of_holder (h : holder cache k = some i) :
    Holds cache i k := by
  have hp := List.find?_some h
  rw [Bool.and_eq_true, beq_iff_eq] at hp
  exact hp

theorem not_holds_of_holder_none (h : holder cache k = none) (i : Fin n) : ¬ Holds cache i k := by
  intro hi
  have hp := List.find?_eq_none.mp h i (List.mem_finRange i)
  rw [Bool.and_eq_true, beq_iff_eq] at hp
  exact hp hi

/-- The view is the one function that agrees with every valid slot and, off the cache, with the
disk. -/
theorem eq_view {disk L : K → V} (hslot : ∀ i k, Holds cache i k → L k = (cache i).data)
    (hdisk : ∀ k, (∀ i, ¬ Holds cache i k) → L k = disk k) : view cache disk = L := by
  funext k
  unfold view
  cases hk : holder cache k with
  | some i => exact (hslot i k (holds_of_holder hk)).symm
  | none => exact (hdisk k (not_holds_of_holder_none hk)).symm

theorem view_of_not_held (h : ∀ i, ¬ Holds cache i k) (disk : K → V) :
    view cache disk k = disk k := by
  unfold view
  cases hk : holder cache k with
  | some i => exact absurd (holds_of_holder hk) (h i)
  | none => rfl

theorem Coherent.view_of_holds {disk : K → V} (hc : Coherent cache disk)
    (h : Holds cache i k) : view cache disk k = (cache i).data := by
  unfold view
  cases hk : holder cache k with
  | some j => rw [hc.unique j i k (holds_of_holder hk) h]
  | none => exact absurd h (not_holds_of_holder_none hk i)

/-- With nothing left to write back, the view is the disk. -/
theorem Coherent.view_of_settled {disk : K → V}
    (hc : Coherent cache disk) (hs : Settled cache) : view cache disk = disk := by
  refine eq_view (fun i k hi => ?_) (fun _ _ => rfl)
  rw [hc.clean i hi.1 (hs i hi.1), hi.2]

/-! ### The moves of a write-back cache -/

variable {cache : Fin n → Entry K V} {disk : K → V}

omit [DecidableEq K] in
/-- Changing the dirty bit or the data of a slot changes no holding. -/
theorem holds_update_iff {i : Fin n} {e : Entry K V} (hv : e.valid = (cache i).valid)
    (hs : e.sector = (cache i).sector) (j : Fin n) (k : K) :
    Holds (update cache i e) j k ↔ Holds cache j k := by
  unfold Holds
  by_cases hj : j = i
  · subst hj; rw [update_self, hv, hs]
  · rw [update_of_ne hj]

variable (hc : Coherent cache disk)
include hc

/-- A sector that no slot but a discardable one holds is seen as it is on disk. -/
theorem Coherent.view_of_discardable (hi : Discardable cache i)
    (hk : ∀ j, j ≠ i → ¬ Holds cache j k) :
    view cache disk k = disk k := by
  by_cases hik : Holds cache i k
  · -- the slot is valid, so it is clean and agrees with the disk
    rw [hc.view_of_holds hik, hc.clean i hik.1 (hi hik.1), hik.2]
  · refine view_of_not_held (fun j hj => ?_) disk
    by_cases hji : j = i
    · exact hik (hji ▸ hj)
    · exact hk j hji hj

omit [DecidableEq K] in
/-- Distinct valid slots hold distinct sectors. -/
theorem Coherent.sector_ne {i j : Fin n} (hij : j ≠ i)
    (hi : (cache i).valid = true) (hj : (cache j).valid = true) :
    (cache j).sector ≠ (cache i).sector :=
  fun h => hij (hc.unique j i (cache i).sector ⟨hj, h⟩ ⟨hi, rfl⟩)

/-- A slot gets other data or another dirty bit, and the disk may change at its sector: the view is
what it was at every other sector. -/
theorem Coherent.refill {e : Entry K V} {disk' L : K → V}
    (hv : e.valid = (cache i).valid) (hs : e.sector = (cache i).sector)
    (hclean : ∀ k, Holds cache i k → e.dirty = false → e.data = disk' k)
    (hdisk : ∀ k, ¬ Holds cache i k → disk' k = disk k)
    (hself : ∀ k, Holds cache i k → L k = e.data)
    (hrest : ∀ k, ¬ Holds cache i k → L k = view cache disk k) :
    Coherent (update cache i e) disk' ∧ view (update cache i e) disk' = L := by
  have hholds := holds_update_iff hv hs
  -- a sector in another valid slot is not in this one
  have hother : ∀ {j k}, j ≠ i → Holds cache j k → ¬ Holds cache i k :=
    fun hji hj h => hji (hc.unique _ _ _ hj h)
  refine ⟨⟨fun a b k ha hb => hc.unique a b k ((hholds a k).mp ha) ((hholds b k).mp hb), ?_⟩, ?_⟩
  · intro j hj hd
    have hh := (hholds j _).mp ⟨hj, rfl⟩
    by_cases hji : j = i
    · subst hji
      rw [update_self] at hd hh ⊢
      exact hclean _ hh hd
    · rw [update_of_ne hji] at hj hd hh ⊢
      rw [hdisk _ (hother hji hh), hc.clean j hj hd]
  · refine eq_view (fun j k hj => ?_) (fun k hk => ?_)
    · have hj' := (hholds j k).mp hj
      by_cases hji : j = i
      · subst hji; rw [update_self, hself k hj']
      · rw [update_of_ne hji, hrest k (hother hji hj'), hc.view_of_holds hj']
    · have hk' : ∀ j, ¬ Holds cache j k := fun j hj => hk j ((hholds j k).mpr hj)
      rw [hrest k (hk' i), view_of_not_held hk', hdisk k (hk' i)]

/-- **Write-back.** The slot's data reaches the disk and the slot becomes clean. -/
theorem Coherent.writeback (hi : (cache i).valid = true) :
    Coherent (update cache i { cache i with dirty := false })
      (update disk (cache i).sector (cache i).data) ∧
    view (update cache i { cache i with dirty := false })
      (update disk (cache i).sector (cache i).data) = view cache disk :=
  hc.refill rfl rfl (fun k hk _ => by rw [← hk.2, update_self])
    (fun k hk => update_of_ne (fun h => hk ⟨hi, h.symm⟩) _ _)
    (fun _ hk => hc.view_of_holds hk) fun _ _ => rfl

/-- **Failed write-back.** Whatever the disk now holds at a dirty slot's sector, the slot still
has the data. -/
theorem Coherent.failedWrite (hi : (cache i).valid = true)
    (hd : (cache i).dirty = true) (junk : V) :
    Coherent cache (update disk (cache i).sector junk) ∧
    view cache (update disk (cache i).sector junk) = view cache disk := by
  refine ⟨⟨hc.unique, fun j hj hjd => ?_⟩, ?_⟩
  · -- a clean slot is another one, with another sector
    have hji : j ≠ i := fun h => by rw [h, hd] at hjd; exact Bool.noConfusion hjd
    rw [update_of_ne (hc.sector_ne hji hi hj), hc.clean j hj hjd]
  · refine eq_view (fun j k hj => hc.view_of_holds hj) (fun k hk => ?_)
    rw [view_of_not_held hk, update_of_ne]
    exact fun h => hk i ⟨hi, h.symm⟩

/-- **Invalidation** of a slot that is clean or already invalid. -/
theorem Coherent.drop (hi : Discardable cache i) :
    Coherent (update cache i { cache i with valid := false }) disk ∧
    view (update cache i { cache i with valid := false }) disk = view cache disk := by
  have hholds : ∀ j k, Holds (update cache i { cache i with valid := false }) j k →
      j ≠ i ∧ Holds cache j k := by
    intro j k hj
    by_cases hji : j = i
    · subst hji
      have hv := hj.1
      rw [update_self] at hv
      cases hv
    · refine ⟨hji, ?_⟩
      unfold Holds at hj
      rwa [update_of_ne hji] at hj
  refine ⟨⟨fun a b k ha hb => hc.unique a b k (hholds a k ha).2 (hholds b k hb).2, ?_⟩, ?_⟩
  · intro j hj hd
    have hji : j ≠ i := (hholds j _ ⟨hj, rfl⟩).1
    rw [update_of_ne hji] at hj hd ⊢
    exact hc.clean j hj hd
  · refine eq_view (fun j k hj => ?_) (fun k hk => ?_)
    · rw [hc.view_of_holds (hholds j k hj).2, update_of_ne (hholds j k hj).1]
    · refine hc.view_of_discardable hi fun j hji hj => hk j ?_
      unfold Holds
      rwa [update_of_ne hji]

/-- **Load.** A discardable slot takes over a sector no slot holds, with the disk's data. -/
theorem Coherent.load (hi : Discardable cache i) (hk : ∀ j, ¬ Holds cache j k) (w : Bool) :
    Coherent (update cache i ⟨true, w, k, disk k⟩) disk ∧
    view (update cache i ⟨true, w, k, disk k⟩) disk = view cache disk := by
  have hother : ∀ {j k'}, j ≠ i → Holds (update cache i ⟨true, w, k, disk k⟩) j k' →
      Holds cache j k' := by
    intro j k' hji hj
    unfold Holds at hj
    rwa [update_of_ne hji] at hj
  have hself : ∀ {k'}, Holds (update cache i ⟨true, w, k, disk k⟩) i k' → k' = k := by
    intro k' hj
    have := hj.2
    rw [update_self] at this
    exact this.symm
  refine ⟨⟨fun a b k' ha hb => ?_, fun j hj hd => ?_⟩, ?_⟩
  · -- no slot held the new sector, so the loaded slot is its only holder
    by_cases ha' : a = i
    · by_cases hb' : b = i
      · rw [ha', hb']
      · subst ha'
        exact absurd (hself ha ▸ hother hb' hb) (hk b)
    · by_cases hb' : b = i
      · subst hb'
        exact absurd (hself hb ▸ hother ha' ha) (hk a)
      · exact hc.unique a b k' (hother ha' ha) (hother hb' hb)
  · by_cases hji : j = i
    · subst hji; simp only [update_self]
    · rw [update_of_ne hji] at hj hd ⊢
      exact hc.clean j hj hd
  · refine eq_view (fun j k' hj => ?_) (fun k' hk' => ?_)
    · by_cases hji : j = i
      · subst hji
        rw [hself hj, view_of_not_held hk, update_self]
      · rw [hc.view_of_holds (hother hji hj), update_of_ne hji]
    · -- what the slot held before was clean
      refine hc.view_of_discardable hi fun j hji hj => hk' j ?_
      unfold Holds
      rwa [update_of_ne hji]

/-- **Marking a slot dirty** announces a write and changes nothing yet. -/
theorem Coherent.markDirty (i : Fin n) :
    Coherent (update cache i { cache i with dirty := true }) disk ∧
    view (update cache i { cache i with dirty := true }) disk = view cache disk :=
  hc.refill rfl rfl (fun _ _ hd => Bool.noConfusion hd) (fun _ _ => rfl)
    (fun _ hk => hc.view_of_holds hk) fun _ _ => rfl

/-- **Store** into a slot already marked dirty: the view changes at its sector only. -/
theorem Coherent.store (hi : Holds cache i k) (hdirty : (cache i).dirty = true) (v : V) :
    Coherent (update cache i { cache i with data := v }) disk ∧
    view (update cache i { cache i with data := v }) disk = update (view cache disk) k v :=
  -- the written slot is dirty, so nothing is claimed about it
  hc.refill rfl rfl (fun _ _ hd => Bool.noConfusion (hd.symm.trans hdirty)) (fun _ _ => rfl)
    (fun k' hk' => by rw [← hk'.2, hi.2, update_self])
    fun k' hk' => update_of_ne (fun h : k' = k => hk' (h ▸ hi)) _ _

end View

/-! ### Provenance -/

section Sourced

variable {S : K → V → Prop} {cache : Fin n → Entry K V} {disk : K → V}

/-- Replacing one slot keeps provenance when the new slot, if valid, has it. -/
theorem Sourced.update (h : Sourced S cache disk) {i : Fin n} {e : Entry K V}
    (he : e.valid = true → S e.sector e.data) : Sourced S (update cache i e) disk where
  disk := h.disk
  slots := by
    intro j hj
    by_cases hji : j = i
    · subst hji; rw [update_self] at hj ⊢; exact he hj
    · rw [update_of_ne hji] at hj ⊢; exact h.slots j hj

/-- A raw write of a valid slot's data keeps provenance. -/
theorem Sourced.writeback [DecidableEq K] (h : Sourced S cache disk) {i : Fin n}
    (hi : (cache i).valid = true) :
    Sourced S cache (Function.update disk (cache i).sector (cache i).data) where
  disk := by
    intro k
    by_cases hk : k = (cache i).sector
    · subst hk; rw [update_self]; exact h.slots i hi
    · rw [update_of_ne hk]; exact h.disk k
  slots := h.slots

end Sourced

end BlockCache
