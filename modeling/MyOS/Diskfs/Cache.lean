import MyOS.Diskfs.Block
import Mathlib.Logic.Relation

/-!
# Transparency of the sector cache

What the block layer can do is said once, as the relation `Move` of elementary moves: the clock
advances, the drive is read, a slot is written back, dropped, filled, marked dirty or overwritten,
and each access to the drive may fail. `W` is the set of announced writes: a move of `Move W`
overwrites a slot only with data that `W` allows for its sector.

Every cache function is a sequence of moves, so an invariant of the block layer is one case analysis
over `Move`: `Move.ok_logical` for coherence and the logical disk, `Move.sourced` for where values
come from on a drive that never fails. Each function also has a verdict (`cacheGet_verdict`, …): it
succeeds exactly when no drive call failed on the way, provided its sectors are in range.
`cache_transparent` is the result for arbitrary runs.
-/

namespace MyOS.Diskfs

open BlockCache Function

/-! ### Elementary moves -/

/-- One elementary move of the block layer. -/
inductive Move (W : UInt32 → Sector → Prop) : BlockLayer → BlockLayer → Prop
  | clock (b : BlockLayer) (c : UInt32) : Move W b { b with cacheClock := c }
  | read (b : BlockLayer) (h : b.ata.outcome b.ata.calls = .done) :
      Move W b (b.setAta b.ata.tick)
  | readFault (b : BlockLayer) (lba : UInt32) {left : Option Sector}
      (h : b.ata.outcome b.ata.calls = .error left) :
      Move W b (b.setAta (b.ata.fault lba none))
  | writeback (b : BlockLayer) (i : Fin 8) (hv : (b.cache i).valid = true)
      (h : b.ata.outcome b.ata.calls = .done) :
      Move W b ((b.setAta (b.ata.store (b.fsStartLba + (b.cache i).sector)
        (b.cache i).data)).setSlot i { b.cache i with dirty := false })
  | writeFault (b : BlockLayer) (i : Fin 8) (hv : (b.cache i).valid = true)
      (hd : (b.cache i).dirty = true) {left : Option Sector}
      (h : b.ata.outcome b.ata.calls = .error left) :
      Move W b (b.setAta (b.ata.fault (b.fsStartLba + (b.cache i).sector) left))
  | drop (b : BlockLayer) (i : Fin 8) (hi : Discardable b.cache i) :
      Move W b (b.setSlot i { b.cache i with valid := false })
  | load (b : BlockLayer) (i : Fin 8) (hi : Discardable b.cache i) (k : UInt32)
      (hk : ∀ j, ¬ Holds b.cache j k) (hr : k < totalSectors) (w : Bool) :
      Move W b (b.setSlot i ⟨true, w, k, b.onDisk k⟩)
  | markDirty (b : BlockLayer) (i : Fin 8) : Move W b (b.setSlot i { b.cache i with dirty := true })
  | store (b : BlockLayer) (i : Fin 8) (k : UInt32) (hi : Holds b.cache i k)
      (hd : (b.cache i).dirty = true) (v : Sector) (hW : W k v) :
      Move W b (b.setSlot i { b.cache i with data := v })

/-- A finite sequence of moves. -/
abbrev Moves (W : UInt32 → Sector → Prop) := Relation.ReflTransGen (Move W)

/-- No write is announced. -/
def noWrites : UInt32 → Sector → Prop := fun _ _ => False

/-- The invariant of the block layer. -/
structure BlockLayer.Ok (b : BlockLayer) : Prop where
  coherent : Coherent b.cache b.onDisk
  range : ∀ i, (b.cache i).valid = true → (b.cache i).sector < totalSectors

/-- The drive never fails. -/
def BlockLayer.Reliable (b : BlockLayer) : Prop := ∀ k, b.ata.outcome k = .done

variable {b b' : BlockLayer} {i : Fin 8} {k : UInt32} {v : Sector}

/-- The cache starts empty. -/
theorem BlockLayer.Ok.empty (h : ∀ i, (b.cache i).valid = false) : b.Ok where
  coherent := Coherent.empty h _
  range := fun i hi => absurd hi (by rw [h i]; exact Bool.false_ne_true)

@[simp] theorem setSlot_onDisk (b : BlockLayer) (i : Fin 8) (e : CacheEntry) :
    (b.setSlot i e).onDisk = b.onDisk := rfl

@[simp] theorem setSlot_cache (b : BlockLayer) (i : Fin 8) (e : CacheEntry) :
    (b.setSlot i e).cache = update b.cache i e := rfl

/-- The window of an updated drive: addition of the start address is injective, also when it
wraps around. -/
theorem window_update (f : UInt32 → Sector) (start r : UInt32) (v : Sector) :
    (fun k => update f (start + r) v (start + k)) = update (fun k => f (start + k)) r v := by
  funext k
  by_cases hk : k = r
  · subst hk; rw [update_self, update_self]
  · rw [update_of_ne hk, update_of_ne]
    exact fun h => hk ((UInt32.add_right_inj start).mp h)

theorem onDisk_store (b : BlockLayer) (r : UInt32) (v : Sector) :
    (b.setAta (b.ata.store (b.fsStartLba + r) v)).onDisk = update b.onDisk r v :=
  window_update b.ata.sectors b.fsStartLba r v

/-- The window after a failed call: at most the addressed sector has changed. -/
theorem onDisk_fault (b : BlockLayer) (r : UInt32) (left : Option Sector) :
    (b.setAta (b.ata.fault (b.fsStartLba + r) left)).onDisk = match left with
        | none => b.onDisk
        | some junk => update b.onDisk r junk := by
  cases left with
  | none => rfl
  | some junk => exact onDisk_store b r junk

/-- The drive fails one of the calls made between the two states. -/
def FailsBetween (b b' : BlockLayer) : Prop :=
  ∃ k, b.ata.calls ≤ k ∧ k < b'.ata.calls ∧ b.ata.outcome k ≠ .done

/-- The drive is the same one, and has counted a call that it failed. -/
structure Accounts (b b' : BlockLayer) : Prop where
  start : b'.fsStartLba = b.fsStartLba
  outcome : b'.ata.outcome = b.ata.outcome
  calls : b.ata.calls ≤ b'.ata.calls
  faults : b'.ata.faults = b.ata.faults ∨ b.ata.faults < b'.ata.faults ∧ FailsBetween b b'

theorem Accounts.trans {b1 b2 : BlockLayer} (h : Accounts b b1) (h' : Accounts b1 b2) :
    Accounts b b2 := by
  refine ⟨h'.start.trans h.start, h'.outcome.trans h.outcome, h.calls.trans h'.calls, ?_⟩
  rcases h.faults with hf | ⟨hf, k, hk, hk1, hout⟩
  · refine h'.faults.imp (fun hf' => hf'.trans hf) ?_
    rintro ⟨hf', k, hk, hk2, hout⟩
    exact ⟨hf ▸ hf', k, h.calls.trans hk, hk2, h.outcome ▸ hout⟩
  · -- the call had failed before
    refine .inr ⟨?_, k, hk, lt_of_lt_of_le hk1 h'.calls, hout⟩
    rcases h'.faults with hf' | ⟨hf', -⟩ <;> omega

namespace Move

variable {W : UInt32 → Sector → Prop} {b b' : BlockLayer}

theorem accounts (h : Move W b b') : Accounts b b' := by
  cases h with
  | read | writeback => exact ⟨rfl, rfl, Nat.le_succ _, .inl rfl⟩
  | readFault lba h =>
    exact ⟨rfl, rfl, Nat.le_succ _, .inr ⟨Nat.lt_succ_self _, _, le_refl _, Nat.lt_succ_self _,
      by simp [h]⟩⟩
  | writeFault i hv hd h =>
    rename_i left
    cases left <;> exact ⟨rfl, rfl, Nat.le_succ _, .inr ⟨Nat.lt_succ_self _, _, le_refl _,
      Nat.lt_succ_self _, by simp [h]⟩⟩
  | _ => exact ⟨rfl, rfl, le_refl _, .inl rfl⟩

/-- **The invariant is kept**, and the logical disk changes at announced sectors only. -/
theorem ok_logical (h : Move W b b') (hb : b.Ok) :
    b'.Ok ∧ ∀ k, (∀ v, ¬ W k v) → b'.logical k = b.logical k := by
  -- a move that keeps every valid slot's sector keeps the range
  have range_update : ∀ (i : Fin 8) (e : CacheEntry), (e.valid = true → e.sector < totalSectors) →
      ∀ j, ((update b.cache i e) j).valid = true →
        ((update b.cache i e) j).sector < totalSectors := by
    intro i e he j hj
    by_cases hji : j = i
    · subst hji; rw [update_self] at hj ⊢; exact he hj
    · rw [update_of_ne hji] at hj ⊢; exact hb.range j hj
  -- each move is an operation of the write-back cache, which says what happens to the view
  cases h with
  | clock | read | readFault => exact ⟨⟨hb.coherent, hb.range⟩, fun _ _ => rfl⟩
  | writeback i hv h =>
    obtain ⟨hc, hview⟩ := hb.coherent.writeback hv
    refine ⟨⟨?_, range_update i _ (fun hv => hb.range i hv)⟩, fun k _ => ?_⟩
    · rw [setSlot_onDisk, onDisk_store]; exact hc
    · unfold BlockLayer.logical
      rw [setSlot_onDisk, onDisk_store]
      exact congrFun hview k
  | writeFault i hv hd h =>
    rename_i left
    unfold BlockLayer.logical
    cases left with
    | none => exact ⟨⟨hb.coherent, hb.range⟩, fun _ _ => rfl⟩
    | some junk =>
      -- the slot is still dirty, so the sector the drive spoiled is covered by it
      obtain ⟨hc, hview⟩ := hb.coherent.failedWrite hv hd junk
      rw [onDisk_fault]
      refine ⟨⟨?_, hb.range⟩, fun k _ => congrFun hview k⟩
      rw [onDisk_fault]
      exact hc
  | drop i hi =>
    obtain ⟨hc, hview⟩ := hb.coherent.drop hi
    exact ⟨⟨hc, range_update i _ (fun hv => absurd hv Bool.false_ne_true)⟩,
      fun k _ => congrFun hview k⟩
  | load i hi k hk hr w =>
    obtain ⟨hc, hview⟩ := hb.coherent.load hi hk w
    exact ⟨⟨hc, range_update i _ (fun _ => hr)⟩, fun k _ => congrFun hview k⟩
  | markDirty i =>
    obtain ⟨hc, hview⟩ := hb.coherent.markDirty i
    exact ⟨⟨hc, range_update i _ (fun hv => hb.range i hv)⟩, fun k _ => congrFun hview k⟩
  | store i k hi hd v hW =>
    obtain ⟨hc, hview⟩ := hb.coherent.store hi hd v
    refine ⟨⟨hc, range_update i _ (fun hv => hb.range i hv)⟩, fun k' hk' => ?_⟩
    -- an unannounced sector is not the overwritten one
    refine (congrFun hview k').trans (update_of_ne ?_ _ _)
    rintro rfl
    exact hk' v hW

end Move

/-- Provenance of everything the block layer holds, and of every state the drive went through
since `H`, read through the filesystem's window. -/
structure BlockLayer.Sourced (S : UInt32 → Sector → Prop) (H : List (UInt32 → Sector))
    (b : BlockLayer) : Prop where
  now : BlockCache.Sourced S b.cache b.onDisk
  past : ∀ d ∈ b.ata.history, d ∈ H ∨ ∀ r, S r (d (b.fsStartLba + r))

/-- **Provenance is kept** by the moves of a drive that never fails, when every announced write
has it. -/
theorem Move.sourced {W S : UInt32 → Sector → Prop} {H : List (UInt32 → Sector)} (h : Move W b b')
    (hr : b.Reliable) (hWS : ∀ k v, W k v → S k v) (hb : b.Sourced S H) : b'.Sourced S H := by
  cases h with
  | clock | read => exact ⟨hb.now, hb.past⟩
  | readFault lba h => exact nomatch (hr _).symm.trans h
  | writeFault i hv hd h => exact nomatch (hr _).symm.trans h
  | writeback i hv h =>
    have hw : BlockCache.Sourced S b.cache (update b.onDisk (b.cache i).sector
        (b.cache i).data) := hb.now.writeback hv
    refine ⟨?_, fun d hd => ?_⟩
    · rw [setSlot_onDisk, onDisk_store]
      exact hw.update (fun _ => hb.now.slots i hv)
    · -- the one new entry of the history is the drive after this very write
      rcases List.mem_cons.mp hd with rfl | hd
      · refine .inr fun r => ?_
        have := hw.disk r
        rwa [← onDisk_store] at this
      · exact hb.past d hd
  | drop i hi => exact ⟨hb.now.update (fun h => absurd h Bool.false_ne_true), hb.past⟩
  | load i hi k hk hr w => exact ⟨hb.now.update (fun _ => hb.now.disk k), hb.past⟩
  | markDirty i => exact ⟨hb.now.update (fun h => hb.now.slots i h), hb.past⟩
  | store i k hi hd v hW =>
    refine ⟨hb.now.update (fun _ => ?_), hb.past⟩
    have hk : (b.cache i).sector = k := hi.2
    exact hWS _ _ (hk ▸ hW)

namespace Moves

variable {W : UInt32 → Sector → Prop} {b b' : BlockLayer}

section Chain

variable (h : Moves W b b')
include h

theorem accounts : Accounts b b' := by
  induction h with
  | refl => exact ⟨rfl, rfl, le_refl _, .inl rfl⟩
  | tail _ hm ih => exact ih.trans hm.accounts

theorem calls_le : b.ata.calls ≤ b'.ata.calls := h.accounts.calls

theorem reliable (hr : b.Reliable) : b'.Reliable := by
  intro k; rw [h.accounts.outcome]; exact hr k

/-- The fault count says whether a call has failed. -/
theorem failsBetween (hlt : b.ata.faults < b'.ata.faults) : FailsBetween b b' :=
  (h.accounts.faults.resolve_left hlt.ne').2

theorem faults_eq (hr : b.Reliable) : b'.ata.faults = b.ata.faults := by
  refine h.accounts.faults.resolve_right ?_
  rintro ⟨-, k, -, -, hout⟩
  exact hout (hr k)

theorem failsBetween_trans {b2 : BlockLayer} (hf : FailsBetween b' b2) : FailsBetween b b2 := by
  obtain ⟨k, hk, hk2, hout⟩ := hf
  rw [h.accounts.outcome] at hout
  exact ⟨k, h.calls_le.trans hk, hk2, hout⟩

theorem ok_logical (hb : b.Ok) : b'.Ok ∧ ∀ k, (∀ v, ¬ W k v) → b'.logical k = b.logical k := by
  induction h with
  | refl => exact ⟨hb, fun _ _ => rfl⟩
  | tail _ hm ih =>
    obtain ⟨hok, hlog⟩ := hm.ok_logical ih.1
    exact ⟨hok, fun k hk => (hlog k hk).trans (ih.2 k hk)⟩

theorem ok (hb : b.Ok) : b'.Ok := (h.ok_logical hb).1

end Chain

/-- Moves that announce nothing leave the logical disk alone. -/
theorem logical_eq (h : Moves noWrites b b') (hb : b.Ok) : b'.logical = b.logical :=
  funext fun k => (h.ok_logical hb).2 k (fun _ hW => hW)

theorem mono {W' : UInt32 → Sector → Prop} (hWW : ∀ k v, W k v → W' k v) (h : Moves W b b') :
    Moves W' b b' := by
  refine Relation.ReflTransGen.mono (fun x y hm => ?_) _ _ h
  cases hm with
  | clock c => exact .clock _ c
  | read h => exact .read _ h
  | readFault lba h => exact .readFault _ lba h
  | writeback i hv h => exact .writeback _ i hv h
  | writeFault i hv hd h => exact .writeFault _ i hv hd h
  | drop i hi => exact .drop _ i hi
  | load i hi k hk hr w => exact .load _ i hi k hk hr w
  | markDirty i => exact .markDirty _ i
  | store i k hi hd v hW => exact .store _ i k hi hd v (hWW k v hW)

theorem sourced {S : UInt32 → Sector → Prop} {H : List (UInt32 → Sector)} (h : Moves W b b')
    (hr : b.Reliable) (hWS : ∀ k v, W k v → S k v) (hb : b.Sourced S H) : b'.Sourced S H := by
  induction h with
  | refl => exact hb
  | tail hms hm ih => exact hm.sourced (reliable hms hr) hWS ih

end Moves

/-! ### The cache functions as moves -/

/-- The verdict of a block-layer function: it succeeds without a failed call, or fails after
one. -/
def Verdict (ok : Bool) (b b' : BlockLayer) : Prop :=
  (ok = true ∧ b'.ata.faults = b.ata.faults) ∨ (ok = false ∧ b.ata.faults < b'.ata.faults)

variable {ok : Bool}

theorem Verdict.eq_true (h : Verdict ok b b') (hf : b'.ata.faults = b.ata.faults) :
    ok = true := by
  rcases h with ⟨hok, -⟩ | ⟨-, hlt⟩
  · exact hok
  · omega

theorem Verdict.lt_of_false (h : Verdict ok b b') (hok : ok = false) :
    b.ata.faults < b'.ata.faults := by
  rcases h with ⟨htrue, -⟩ | ⟨-, hlt⟩
  · exact absurd (hok.symm.trans htrue) Bool.false_ne_true
  · exact hlt

/-- After a success, the verdict of the next step is the verdict of both. -/
theorem Verdict.trans {b1 b2 : BlockLayer} (h : Verdict true b b1)
    (h' : Verdict ok b1 b2) : Verdict ok b b2 := by
  rcases h with ⟨-, hf⟩ | ⟨hf, -⟩
  · unfold Verdict at h' ⊢
    rwa [hf] at h'
  · cases hf

theorem fault_faults (d : Ata) (lba : UInt32) (left : Option Sector) :
    (d.fault lba left).faults = d.faults + 1 := by
  cases left <;> rfl

theorem rawReadSector_cases (b : BlockLayer) (k : UInt32) :
    (¬ k < totalSectors ∧ rawReadSector b k = (none, b)) ∨
    (k < totalSectors ∧ b.ata.outcome b.ata.calls = .done ∧
      rawReadSector b k = (some (b.onDisk k), b.setAta b.ata.tick)) ∨
    (k < totalSectors ∧ ∃ left, b.ata.outcome b.ata.calls = .error left ∧
      rawReadSector b k = (none, b.setAta (b.ata.fault (b.fsStartLba + k) none))) := by
  unfold rawReadSector ataReadSector
  by_cases hk : k ≥ totalSectors
  · exact .inl ⟨UInt32.not_lt.mpr hk, if_pos hk⟩
  · have hlt : k < totalSectors := UInt32.not_le.mp hk
    rw [if_neg hk]
    cases ho : b.ata.outcome b.ata.calls with
    | done => exact .inr (.inl ⟨hlt, rfl, rfl⟩)
    | error left => exact .inr (.inr ⟨hlt, left, rfl, rfl⟩)

/-- What `cache_writeback` can do. -/
theorem cacheWriteback_cases (b : BlockLayer) (i : Fin 8) :
    (Discardable b.cache i ∧ cacheWriteback b i = (true, b)) ∨
    ((b.cache i).valid = true ∧ (b.cache i).dirty = true ∧
      ((¬ (b.cache i).sector < totalSectors ∧ cacheWriteback b i = (false, b)) ∨
       (b.ata.outcome b.ata.calls = .done ∧ cacheWriteback b i = (true, (b.setAta
          (b.ata.store (b.fsStartLba + (b.cache i).sector) (b.cache i).data)).setSlot i
          { b.cache i with dirty := false })) ∨
       (∃ left, b.ata.outcome b.ata.calls = .error left ∧ cacheWriteback b i =
          (false, b.setAta (b.ata.fault (b.fsStartLba + (b.cache i).sector) left))))) := by
  unfold cacheWriteback rawWriteSector ataWriteSector
  -- only a valid and dirty slot reaches the drive
  by_cases hd : (b.cache i).valid = true ∧ (b.cache i).dirty = true
  · refine .inr ⟨hd.1, hd.2, ?_⟩
    simp only [hd.1, hd.2, Bool.not_true, Bool.or_self, Bool.false_eq_true, if_false]
    by_cases hk : (b.cache i).sector ≥ totalSectors
    · left
      -- the bounds check of `raw_write_sector`, before any call to the drive
      refine ⟨UInt32.not_lt.mpr hk, ?_⟩
      rw [if_pos hk]
      rfl
    · right
      rw [if_neg hk]
      cases ho : b.ata.outcome b.ata.calls with
      | done => exact .inl ⟨rfl, rfl⟩
      | error left => exact .inr ⟨left, rfl, rfl⟩
  · left
    have hdis : Discardable b.cache i := by
      intro hv
      by_contra hnd
      exact hd ⟨hv, by simpa using hnd⟩
    refine ⟨hdis, if_pos ?_⟩
    by_cases hv : (b.cache i).valid = true
    · rw [hdis hv]; simp
    · simp [hv]

/-- `cache_writeback` of the slot `i` took `b` to `b'`. -/
structure WroteBack (b : BlockLayer) (i : Fin 8) (ok : Bool) (b' : BlockLayer) : Prop where
  moves : ∀ W, Moves W b b'
  /-- Writing back moves no sector between slots. -/
  holds : ∀ j k, Holds b'.cache j k ↔ Holds b.cache j k
  others : ∀ j, j ≠ i → b'.cache j = b.cache j
  clean : ok = true → Discardable b'.cache i
  verdict : b.Ok → Verdict ok b b'

theorem cacheWriteback_spec (b : BlockLayer) (i : Fin 8) :
    WroteBack b i (cacheWriteback b i).1 (cacheWriteback b i).2 := by
  rcases cacheWriteback_cases b i with ⟨hdis, h⟩ | ⟨hv, hd, ⟨hr, h⟩ | ⟨ho, h⟩ | ⟨left, ho, h⟩⟩ <;>
    rw [h]
  · exact ⟨fun _ => .refl, fun _ _ => Iff.rfl, fun _ _ => rfl, fun _ => hdis,
      fun _ => .inl ⟨rfl, rfl⟩⟩
  · -- the bounds check passes: slots only hold sectors in range
    exact ⟨fun _ => .refl, fun _ _ => Iff.rfl, fun _ _ => rfl, fun h => absurd h Bool.false_ne_true,
      fun hb => absurd (hb.range i hv) hr⟩
  · exact ⟨fun _ => .single (.writeback b i hv ho),
      holds_update_iff (e := { b.cache i with dirty := false }) rfl rfl,
      fun j hj => update_of_ne hj _ _, fun _ _ => by simp [BlockLayer.setSlot],
      fun _ => .inl ⟨rfl, rfl⟩⟩
  · refine ⟨fun _ => .single (.writeFault b i hv hd ho), fun _ _ => Iff.rfl, fun _ _ => rfl,
      fun h => absurd h Bool.false_ne_true, fun _ => .inr ⟨rfl, ?_⟩⟩
    change b.ata.faults < (b.ata.fault _ left).faults
    rw [fault_faults]
    exact Nat.lt_succ_self _

/-- What the miss branch of `cache_get` can do. -/
theorem cacheRefill_cases (b : BlockLayer) (v : Fin 8) (k : UInt32) (w : Bool) :
    ((cacheWriteback b v).1 = false ∧ cacheRefill b v k w = (none, (cacheWriteback b v).2)) ∨
    ((cacheWriteback b v).1 = true ∧ ∃ b2, b2 = (cacheWriteback b v).2 ∧ ((¬ k < totalSectors ∧
          cacheRefill b v k w = (none, b2.setSlot v { b2.cache v with valid := false })) ∨
       (k < totalSectors ∧ b2.ata.outcome b2.ata.calls = .done ∧ cacheRefill b v k w =
          (some v, (b2.setAta b2.ata.tick).setSlot v ⟨true, w, k, b2.onDisk k⟩)) ∨
       (k < totalSectors ∧ ∃ left, b2.ata.outcome b2.ata.calls = .error left ∧
          cacheRefill b v k w = (none, (b2.setAta (b2.ata.fault (b2.fsStartLba + k) none)).setSlot v
            { b2.cache v with valid := false })))) := by
  unfold cacheRefill
  cases hok : (cacheWriteback b v).1 with
  | false => exact .inl ⟨rfl, by simp [hok]⟩
  | true =>
    refine .inr ⟨rfl, _, rfl, ?_⟩
    rcases rawReadSector_cases (cacheWriteback b v).2 k with
      ⟨hlt, hr⟩ | ⟨hlt, ho, hr⟩ | ⟨hlt, left, ho, hr⟩
    · exact .inl ⟨hlt, by simp [hok, hr]⟩
    · exact .inr (.inl ⟨hlt, ho, by simp [hok, hr]⟩)
    · refine .inr (.inr ⟨hlt, left, ho, ?_⟩)
      simp only [hok, hr, if_true]
      rfl

/-- `cache_get` announces no write; the slot it returns holds the sector, and is marked dirty when
asked to be. -/
theorem cacheGet_spec (b : BlockLayer) (k : UInt32) (w : Bool) :
    Moves noWrites b (cacheGet b k w).2 ∧
    ∀ i, (cacheGet b k w).1 = some i → Holds (cacheGet b k w).2.cache i k ∧
      (w = true → ((cacheGet b k w).2.cache i).dirty = true) := by
  have hclock : Moves noWrites b b.advance := .single (.clock b _)
  unfold cacheGet
  cases hh : holder b.advance.cache k with
  | some i =>
    -- a hit only stamps the slot, and marks it dirty for a write
    have hi : Holds b.advance.cache i k := holds_of_holder hh
    cases w with
    | false =>
      refine ⟨hclock, fun j hj => ?_⟩
      obtain rfl : i = j := Option.some.inj hj
      exact ⟨hi, fun h => absurd h Bool.false_ne_true⟩
    | true =>
      refine ⟨hclock.tail (.markDirty b.advance i), fun j hj => ?_⟩
      obtain rfl : i = j := Option.some.inj hj
      exact ⟨(holds_update_iff (e := { b.cache i with dirty := true }) rfl rfl i k).mpr hi,
        fun _ => by simp⟩
  | none =>
    -- a miss writes the victim back first, which puts the sector in no slot
    have hnone := not_holds_of_holder_none hh
    have hwb : Moves noWrites b (cacheWriteback b.advance (victimSlot b)).2 :=
      hclock.trans ((cacheWriteback_spec _ _).moves noWrites)
    have hfree : ∀ j, ¬ Holds (cacheWriteback b.advance (victimSlot b)).2.cache j k :=
      fun j hj => hnone j (((cacheWriteback_spec _ _).holds j k).mp hj)
    rcases cacheRefill_cases b.advance (victimSlot b) k w with ⟨-, hr⟩ | ⟨hok, b2, hb2, hr⟩
    · rw [hr]
      exact ⟨hwb, nofun⟩
    · -- the victim is clean now and may be dropped or filled
      have hdis := (cacheWriteback_spec _ _).clean hok
      rw [← hb2] at hwb hfree hdis
      rcases hr with ⟨-, hr⟩ | ⟨hlt, ho, hr⟩ | ⟨-, left, ho, hr⟩
      · rw [hr]
        exact ⟨hwb.tail (.drop _ _ hdis), nofun⟩
      · rw [hr]
        refine ⟨(hwb.tail (.read b2 ho)).tail
          (.load (b2.setAta b2.ata.tick) _ hdis k hfree hlt w), fun j hj => ?_⟩
        obtain rfl : victimSlot b = j := Option.some.inj hj
        simp [Holds]
      · rw [hr]
        exact ⟨(hwb.tail (.readFault b2 _ ho)).tail (.drop (b2.setAta _) _ hdis),
          nofun⟩

theorem cacheGet_verdict (hb : b.Ok) (hk : k < totalSectors) (w : Bool) :
    Verdict (cacheGet b k w).1.isSome b (cacheGet b k w).2 := by
  have hok1 : b.advance.Ok := ⟨hb.coherent, hb.range⟩
  unfold cacheGet
  cases hh : holder b.advance.cache k with
  | some i => cases w <;> exact .inl ⟨rfl, rfl⟩
  | none =>
    -- the write-back of the victim and the read of the sector can each fail
    rcases (cacheWriteback_spec _ (victimSlot b)).verdict hok1 with ⟨hok, hf⟩ | ⟨hok, hf⟩ <;>
      rcases cacheRefill_cases b.advance (victimSlot b) k w with ⟨hok', hr⟩ | ⟨hok', b2, hb2, hr⟩
    · exact nomatch hok.symm.trans hok'
    · rw [← hb2] at hf
      rcases hr with ⟨hlt, -⟩ | ⟨-, -, hr⟩ | ⟨-, left, -, hr⟩
      · exact absurd hk hlt
      · rw [hr]; exact .inl ⟨rfl, hf⟩
      · rw [hr]
        refine .inr ⟨rfl, ?_⟩
        change b.ata.faults < (b2.ata.fault (b2.fsStartLba + k) none).faults
        rw [fault_faults]
        exact Nat.lt_succ_of_le (le_of_eq hf.symm)
    · rw [hr]; exact .inr ⟨rfl, hf⟩
    · exact nomatch hok.symm.trans hok'

theorem readSector_moves (b : BlockLayer) (k : UInt32) : Moves noWrites b (readSector b k).2 :=
  (cacheGet_spec b k false).1

/-- A successful `read_sector` returns the logical sector. -/
theorem readSector_eq (hb : b.Ok) (h : (readSector b k).1 = some v) : v = b.logical k := by
  obtain ⟨hm, hi⟩ := cacheGet_spec b k false
  obtain ⟨i, hget, rfl⟩ := Option.map_eq_some_iff.mp h
  have hheld := (hi i hget).1
  have hcoh := (hm.ok hb).coherent
  rw [← Moves.logical_eq hm hb]
  exact (hcoh.view_of_holds hheld).symm

theorem readSector_verdict (hb : b.Ok) (hk : k < totalSectors) :
    Verdict (readSector b k).1.isSome b (readSector b k).2 := by
  have h := cacheGet_verdict hb hk false
  unfold readSector
  rwa [Option.isSome_map]

/-- A read leaves nothing new to write back. -/
theorem readSector_settled (hs : Settled b.cache) (k : UInt32) :
    Settled (readSector b k).2.cache := by
  have hupdate : ∀ (c : Fin 8 → CacheEntry) (i : Fin 8) (e : CacheEntry), Settled c →
      (e.valid = true → e.dirty = false) → Settled (update c i e) := by
    intro c i e hc he j hj
    by_cases hji : j = i
    · subst hji; rw [update_self] at hj ⊢; exact he hj
    · rw [update_of_ne hji] at hj ⊢; exact hc j hj
  change Settled (cacheGet b k false).2.cache
  unfold cacheGet
  cases hh : holder b.advance.cache k with
  | some i => exact hs
  | none =>
    -- the victim is clean, so the write-back does nothing
    have hwb : cacheWriteback b.advance (victimSlot b) = (true, b.advance) := by
      rcases cacheWriteback_cases b.advance (victimSlot b) with ⟨-, h⟩ | ⟨hv, hd, -⟩
      · exact h
      · exact absurd (hs _ hv) (by rw [show (b.cache (victimSlot b)).dirty = true from hd]; decide)
    rcases cacheRefill_cases b.advance (victimSlot b) k false with ⟨hf, -⟩ | ⟨-, b2, rfl, hr⟩
    · rw [hwb] at hf
      exact absurd hf.symm Bool.false_ne_true
    · rw [hwb] at hr
      rcases hr with ⟨-, hr⟩ | ⟨-, -, hr⟩ | ⟨-, left, -, hr⟩ <;> rw [hr]
      · exact hupdate _ _ _ hs (fun h => absurd h Bool.false_ne_true)
      · exact hupdate _ _ _ hs (fun _ => rfl)
      · exact hupdate _ _ _ hs (fun h => absurd h Bool.false_ne_true)

/-- The single write announced by `write_sector`. -/
def oneWrite (k : UInt32) (v : Sector) : UInt32 → Sector → Prop := fun k' v' => k' = k ∧ v' = v

theorem writeSector_of_none (h : (cacheGet b k true).1 = none) :
    writeSector b k v = (false, (cacheGet b k true).2) := by
  simp [writeSector, h]

theorem writeSector_of_some (h : (cacheGet b k true).1 = some i) : writeSector b k v =
      (true, (cacheGet b k true).2.setSlot i { (cacheGet b k true).2.cache i with data := v }) := by
  simp [writeSector, h]

theorem writeSector_moves (b : BlockLayer) (k : UInt32) (v : Sector) :
    Moves (oneWrite k v) b (writeSector b k v).2 := by
  obtain ⟨hm, hi⟩ := cacheGet_spec b k true
  have hm' : Moves (oneWrite k v) b (cacheGet b k true).2 := hm.mono (fun _ _ h => h.elim)
  cases hget : (cacheGet b k true).1 with
  | none => rw [writeSector_of_none hget]; exact hm'
  | some i =>
    rw [writeSector_of_some hget]
    obtain ⟨hheld, hdirty⟩ := hi i hget
    exact hm'.tail (.store _ i k hheld (hdirty rfl) v ⟨rfl, rfl⟩)

/-- **The effect of `write_sector`** on the logical disk: the whole write or nothing. -/
theorem writeSector_logical (hb : b.Ok) (k : UInt32) (v : Sector) : (writeSector b k v).2.logical
      = if (writeSector b k v).1 then update b.logical k v else b.logical := by
  obtain ⟨hm, hi⟩ := cacheGet_spec b k true
  cases hget : (cacheGet b k true).1 with
  | none => rw [writeSector_of_none hget]; exact Moves.logical_eq hm hb
  | some i =>
    obtain ⟨hheld, hdirty⟩ := hi i hget
    obtain ⟨-, hview⟩ := (hm.ok hb).coherent.store hheld (hdirty rfl) v
    rw [writeSector_of_some hget, if_pos rfl, ← Moves.logical_eq hm hb]
    exact hview

theorem writeSector_verdict (hb : b.Ok) (hk : k < totalSectors) (v : Sector) :
    Verdict (writeSector b k v).1 b (writeSector b k v).2 := by
  have h := cacheGet_verdict hb hk true
  cases hget : (cacheGet b k true).1 with
  | none => rw [writeSector_of_none hget]; rw [hget] at h; exact h
  | some i => rw [writeSector_of_some hget]; rw [hget] at h; exact h

/-! ### The flush -/

theorem flushSlots_moves (W : UInt32 → Sector → Prop) (l : List (Fin 8)) (ok : Bool)
    (b : BlockLayer) : Moves W b (flushSlots l ok b).2 := by
  induction l generalizing ok b with
  | nil => exact .refl
  | cons i rest ih => exact ((cacheWriteback_spec b i).moves W).trans (ih _ _)

/-- Once a write-back has failed the flush reports failure, and otherwise the slots it visited are
clean and the others untouched. -/
theorem flushSlots_true {l : List (Fin 8)} (h : (flushSlots l ok b).1 = true) :
    ok = true ∧ ∀ i, (i ∈ l ∨ Discardable b.cache i) →
      Discardable (flushSlots l ok b).2.cache i := by
  induction l generalizing ok b with
  | nil => exact ⟨h, fun i hi => hi.elim (fun hm => absurd hm List.not_mem_nil) id⟩
  | cons j rest ih =>
    obtain ⟨hand, hrest⟩ := ih h
    rw [Bool.and_eq_true] at hand
    -- slot `j` is cleaned by this step, the others are still to visit or clean already
    refine ⟨hand.1, fun i hi => hrest i ?_⟩
    by_cases hij : i = j
    · subst hij
      exact .inr ((cacheWriteback_spec b _).clean hand.2)
    · rcases hi with hi | hi
      · exact .inl ((List.mem_cons.mp hi).resolve_left hij)
      · right
        unfold Discardable
        rw [(cacheWriteback_spec b j).others i hij]
        exact hi

theorem flushSlots_verdict {l : List (Fin 8)} {b0 : BlockLayer} (hb : b.Ok)
    (h : Verdict ok b0 b) : Verdict (flushSlots l ok b).1 b0 (flushSlots l ok b).2 := by
  induction l generalizing ok b with
  | nil => exact h
  | cons i rest ih =>
    refine ih (((cacheWriteback_spec b i).moves noWrites).ok hb) ?_
    -- the flush goes on after a failure, and the result stays false
    rcases h with ⟨hok, hf⟩ | ⟨hok, hf⟩ <;>
      rcases (cacheWriteback_spec b i).verdict hb with ⟨hok', hf'⟩ | ⟨hok', hf'⟩
    · exact .inl ⟨by rw [hok, hok']; rfl, by omega⟩
    · exact .inr ⟨by rw [hok, hok']; rfl, by omega⟩
    · exact .inr ⟨by rw [hok]; rfl, by omega⟩
    · exact .inr ⟨by rw [hok]; rfl, by omega⟩

theorem diskfsFlush_moves (W : UInt32 → Sector → Prop) (b : BlockLayer) :
    Moves W b (diskfsFlush b).2 := flushSlots_moves W _ _ _

theorem diskfsFlush_settled (h : (diskfsFlush b).1 = true) : Settled (diskfsFlush b).2.cache :=
  fun i hi => (flushSlots_true h).2 i (.inl (List.mem_finRange i)) hi

theorem diskfsFlush_logical (hb : b.Ok) :
    (diskfsFlush b).2.logical = b.logical := Moves.logical_eq (diskfsFlush_moves _ b) hb

theorem diskfsFlush_verdict (hb : b.Ok) :
    Verdict (diskfsFlush b).1 b (diskfsFlush b).2 := flushSlots_verdict hb (.inl ⟨rfl, rfl⟩)

/-- A settled block layer has its logical disk on disk. -/
theorem BlockLayer.Ok.onDisk_eq (hb : b.Ok) (hs : Settled b.cache) :
    b.onDisk = b.logical := (hb.coherent.view_of_settled hs).symm

/-! ### Transparency -/

/-- A call to the cache. -/
inductive CacheCall where
  | read (sector : UInt32)
  | write (sector : UInt32) (buffer : Sector)
  | flush

/-- The block layer after a call. -/
def CacheCall.exec (b : BlockLayer) : CacheCall → BlockLayer
  | .read k => (readSector b k).2
  | .write k v => (writeSector b k v).2
  | .flush => (diskfsFlush b).2

theorem CacheCall.exec_ok (hb : b.Ok) (c : CacheCall) : (c.exec b).Ok := by
  cases c with
  | read k => exact (readSector_moves b k).ok hb
  | write k v => exact (writeSector_moves b k v).ok hb
  | flush => exact (diskfsFlush_moves noWrites b).ok hb

theorem CacheCall.run_ok (hb : b.Ok) (calls : List CacheCall) : (calls.foldl CacheCall.exec b).Ok :=
  List.foldlRecOn calls CacheCall.exec hb (fun _ hb c _ => c.exec_ok hb)

/-- What the next call does to the logical disk `b.logical`. -/
structure BlockLayer.Transparent (b : BlockLayer) : Prop where
  /-- A sector is in at most one valid slot. -/
  unique : ∀ i j, (b.cache i).valid = true → (b.cache j).valid = true →
    (b.cache i).sector = (b.cache j).sector → i = j
  /-- A read, successful or not, changes nothing, and returns the logical sector. -/
  read : ∀ k, (readSector b k).2.logical = b.logical ∧
    ∀ v, (readSector b k).1 = some v → v = b.logical k
  /-- A successful write replaces exactly its sector. -/
  write : ∀ k v, (writeSector b k v).1 = true →
    (writeSector b k v).2.logical = update b.logical k v
  /-- A failed write changes nothing. -/
  write_fail : ∀ k v, (writeSector b k v).1 = false → (writeSector b k v).2.logical = b.logical
  /-- A flush, successful or not, changes nothing. -/
  flush : (diskfsFlush b).2.logical = b.logical
  /-- After a successful flush the logical disk is on disk. -/
  flush_done : (diskfsFlush b).1 = true → (diskfsFlush b).2.onDisk = (diskfsFlush b).2.logical

theorem BlockLayer.Ok.transparent (hb : b.Ok) : b.Transparent where
  unique := fun i j hi hj hij => hb.coherent.unique i j _ ⟨hi, hij⟩ ⟨hj, rfl⟩
  read := fun k => ⟨Moves.logical_eq (readSector_moves b k) hb, fun _ hv => readSector_eq hb hv⟩
  write := fun k v h => by rw [writeSector_logical hb, if_pos h]
  write_fail := fun k v h => by rw [writeSector_logical hb, if_neg (by rw [h]; simp)]
  flush := diskfsFlush_logical hb
  flush_done := fun h => ((diskfsFlush_moves noWrites b).ok hb).onDisk_eq (diskfsFlush_settled h)

/-- **The sector cache is transparent.** After any calls from an empty cache, on a drive whose
every call may fail, the block layer behaves as its logical disk. -/
theorem cache_transparent {b : BlockLayer} (hempty : ∀ i, (b.cache i).valid = false)
    (calls : List CacheCall) : (calls.foldl CacheCall.exec b).Transparent :=
  (CacheCall.run_ok (BlockLayer.Ok.empty hempty) calls).transparent

/-- The block layer as the boot leaves it, on a drive whose second call fails and leaves ones in
the sector it addresses. -/
def faultyStart : BlockLayer where
  fsStartLba := 2048
  cache := fun _ => ⟨false, false, 0, Bytes.zero⟩
  cacheClock := 0
  ata :=
    { sectors := fun _ => Bytes.zero
      outcome := fun k => if k = 1 then .error (some (fun _ => 1)) else .done
      calls := 0
      faults := 0
      history := [] }

theorem cache_transparent_faultyStart :
    ([CacheCall.write 20 (fun _ => 7), .flush, .read 5000, .flush].foldl
      CacheCall.exec faultyStart).Transparent :=
  cache_transparent (fun _ => rfl) _

end MyOS.Diskfs
