import MyOS.Lib.Bytes
import MyOS.Lib.BlockCache

/-!
# The block layer of diskfs

The part of `kernel/fs/diskfs/diskfs.c` between the filesystem and the ATA driver: raw sector access
relative to `fs_start_lba`, the eight-slot write-back cache, and `diskfs_flush`.

Each driver call consumes one `AtaOutcome`: it succeeds, or it fails, and a failed write may leave
anything in the sector it addresses. Two fields are read by no code: `history`, the contents of the
drive after each raw write (newest first), and `faults`, the number of failed calls so far.
-/

namespace MyOS.Diskfs

/-- `DISKFS_SECTOR_SIZE` bytes. -/
abbrev Sector := Bytes 512

/-- `DISKFS_TOTAL_SECTORS`. -/
def totalSectors : UInt32 := 4096

/-! ### The drive -/

/-- What the drive answers to one call. A failed write leaves `some` contents in the sector it
addresses, or does not touch it. -/
inductive AtaOutcome where
  | done
  | error (left : Option Sector)

/-- The drive behind `ata.c`. -/
structure Ata where
  sectors : UInt32 → Sector
  /-- The outcome of each call, by call number. -/
  outcome : ℕ → AtaOutcome
  calls : ℕ
  /-- Failed calls so far. -/
  faults : ℕ
  /-- Contents after each raw write so far, newest first. -/
  history : List (UInt32 → Sector)

namespace Ata

/-- A successful call that does not write. -/
def tick (d : Ata) : Ata := { d with calls := d.calls + 1 }

/-- The sector at `lba` becomes `data`. -/
def store (d : Ata) (lba : UInt32) (data : Sector) : Ata :=
  { d with
    sectors := Function.update d.sectors lba data
    calls := d.calls + 1
    history := Function.update d.sectors lba data :: d.history }

/-- A failed call, which leaves `left` in the sector at `lba`. -/
def fault (d : Ata) (lba : UInt32) (left : Option Sector) : Ata :=
  match left with
  | none => { d.tick with faults := d.faults + 1 }
  | some junk => { d.store lba junk with faults := d.faults + 1 }

end Ata

/-- `ata_read_sector`: a failed read returns before it touches the buffer. -/
def ataReadSector (d : Ata) (lba : UInt32) : Option Sector × Ata :=
  match d.outcome d.calls with
  | .done => (some (d.sectors lba), d.tick)
  | .error _ => (none, d.fault lba none)

/-- `ata_write_sector`. -/
def ataWriteSector (d : Ata) (lba : UInt32) (buffer : Sector) : Bool × Ata :=
  match d.outcome d.calls with
  | .done => (true, d.store lba buffer)
  | .error left => (false, d.fault lba left)

/-! ### Raw sectors and the cache -/

/-- `struct diskfs_cache_entry`. -/
abbrev CacheEntry := BlockCache.Entry UInt32 Sector

/-- The statics of the block layer, with the drive they sit on. -/
structure BlockLayer where
  fsStartLba : UInt32
  cache : Fin 8 → CacheEntry
  cacheClock : UInt32
  ata : Ata

namespace BlockLayer

/-- Assignment to one cache slot. -/
def setSlot (b : BlockLayer) (i : Fin 8) (e : CacheEntry) : BlockLayer :=
  { b with cache := Function.update b.cache i e }

/-- A call to the drive returned. -/
def setAta (b : BlockLayer) (d : Ata) : BlockLayer := { b with ata := d }

/-- `cache_clock++`. -/
def advance (b : BlockLayer) : BlockLayer := { b with cacheClock := b.cacheClock + 1 }

/-- The filesystem's window on the drive, by relative sector. -/
def onDisk (b : BlockLayer) (r : UInt32) : Sector := b.ata.sectors (b.fsStartLba + r)

/-- The logical disk: for each sector the data of the valid slot holding it, else the data on
disk. -/
def logical (b : BlockLayer) : UInt32 → Sector := BlockCache.view b.cache b.onDisk

end BlockLayer

/-- `raw_read_sector`. -/
def rawReadSector (b : BlockLayer) (relativeSector : UInt32) : Option Sector × BlockLayer :=
  if relativeSector ≥ totalSectors then (none, b)
  else
    let r := ataReadSector b.ata (b.fsStartLba + relativeSector)
    (r.1, b.setAta r.2)

/-- `raw_write_sector`. -/
def rawWriteSector (b : BlockLayer) (relativeSector : UInt32) (buffer : Sector) :
    Bool × BlockLayer :=
  if relativeSector ≥ totalSectors then (false, b)
  else
    let w := ataWriteSector b.ata (b.fsStartLba + relativeSector) buffer
    (w.1, b.setAta w.2)

/-- `cache_writeback` on the slot `i`. -/
def cacheWriteback (b : BlockLayer) (i : Fin 8) : Bool × BlockLayer :=
  let entry := b.cache i
  if !entry.valid || !entry.dirty then (true, b)
  else
    let w := rawWriteSector b entry.sector entry.data
    if w.1 then (true, w.2.setSlot i { entry with dirty := false })
    else (false, w.2)

/-- The slot the clock points at. -/
def victimSlot (b : BlockLayer) : Fin 8 := Fin.ofNat 8 b.cacheClock.toNat

/-- The miss branch of `cache_get`: write the victim back, then read over it. -/
def cacheRefill (b : BlockLayer) (victim : Fin 8) (sector : UInt32) (forWrite : Bool) :
    Option (Fin 8) × BlockLayer :=
  let w := cacheWriteback b victim
  if w.1 then
    let r := rawReadSector w.2 sector
    match r.1 with
    | none => (none, r.2.setSlot victim { r.2.cache victim with valid := false })
    | some data => (some victim, r.2.setSlot victim ⟨true, forWrite, sector, data⟩)
  else (none, w.2)

/-- `cache_get`: the slot that now holds `sector`, or a null pointer. The victim is picked before
the scan, so the clock also advances on a hit. -/
def cacheGet (b : BlockLayer) (sector : UInt32) (forWrite : Bool) : Option (Fin 8) × BlockLayer :=
  match BlockCache.holder b.advance.cache sector with
  | some i =>
    if forWrite then (some i, b.advance.setSlot i { b.cache i with dirty := true })
    else (some i, b.advance)
  | none => cacheRefill b.advance (victimSlot b) sector forWrite

/-- `read_sector`: the buffer filled by a successful read. -/
def readSector (b : BlockLayer) (relativeSector : UInt32) : Option Sector × BlockLayer :=
  let g := cacheGet b relativeSector false
  (g.1.map (fun i => (g.2.cache i).data), g.2)

/-- `write_sector`. -/
def writeSector (b : BlockLayer) (relativeSector : UInt32) (buffer : Sector) : Bool × BlockLayer :=
  let g := cacheGet b relativeSector true
  match g.1 with
  | none => (false, g.2)
  | some i => (true, g.2.setSlot i { g.2.cache i with data := buffer })

/-- The loop of `diskfs_flush` over the slots still to do. -/
def flushSlots : List (Fin 8) → Bool → BlockLayer → Bool × BlockLayer
  | [], ok, b => (ok, b)
  | i :: rest, ok, b =>
    let w := cacheWriteback b i
    flushSlots rest (ok && w.1) w.2

/-- `diskfs_flush`: every slot is tried, whatever happens to the others. -/
def diskfsFlush (b : BlockLayer) : Bool × BlockLayer := flushSlots (List.finRange 8) true b

end MyOS.Diskfs
