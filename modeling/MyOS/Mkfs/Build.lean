import MyOS.Diskfs.Path
import MyOS.Lib.Bitmap
import Mathlib.Data.Char
import Mathlib.Data.List.Lex

/-!
# The image builder

`tools/build/mkfs.py`: the dictionary `FILES` is laid out in path order, directories are created on
the way, and the superblock, the bitmap and the inode table are packed into an image of 4096
sectors. Text is a list of characters, the image a function from byte offsets, and an exception is
an `Except` error with its text.
-/

namespace MyOS.Mkfs

open Diskfs (Sector typeFile typeDir)

/-- An entry of the `inodes` list. -/
structure Node where
  type : UInt8
  parent : ℕ
  name : List Char
  size : ℕ
  first : ℕ
  sectors : ℕ

/-- The local variables of `main`. -/
structure Builder where
  image : ℕ → UInt8
  inodes : List Node
  lookup : List (List Char × ℕ)
  nextSector : ℕ

/-- `image[off:off + len(data)] = data`. -/
def put (image : ℕ → UInt8) (off : ℕ) (data : List UInt8) : ℕ → UInt8 :=
  fun k => if off ≤ k ∧ k < off + data.length then data.getD (k - off) 0 else image k

/-- `split_path`. -/
def splitPath (path : List Char) : List (List Char) := components '/' path

/-- `struct.pack("<I", value)`. -/
def packWord (value : ℕ) : List UInt8 :=
  let w := UInt32.ofNat value
  [leByte w 0, leByte w 1, leByte w 2, leByte w 3]

/-- `name.encode("ascii")[:31]`. -/
def encodeName (name : List Char) : Except String (List UInt8) :=
  if name.all (fun c => decide (c.toNat < 128)) then
    .ok ((name.map (fun c => UInt8.ofNat c.toNat)).take 31)
  else .error "'ascii' codec can't encode character: ordinal not in range(128)"

/-- `pack_inode` on an entry of the list. -/
def packInode (node : Node) : Except String (List UInt8) :=
  match encodeName node.name with
  | .error e => .error e
  | .ok encoded =>
    let nameBuf := encoded ++ 0 :: List.replicate (32 - encoded.length - 1) 0
    .ok ([node.type, 0, 0, 0] ++ packWord node.size ++ packWord node.first ++
      packWord node.sectors ++ packWord node.parent ++ nameBuf ++ List.replicate 12 0)

/-- A directory that has no inode yet gets one. -/
def Builder.addDir (b : Builder) (path : List Char) (parent : ℕ) (name : List Char) : Builder :=
  { b with
    lookup := (path, b.inodes.length) :: b.lookup
    inodes := b.inodes ++ [⟨typeDir, parent, name, 0, 0, 0⟩] }

/-- The loop of `ensure_dir`. -/
def ensureDir : List (List Char) → List Char → ℕ → Builder → Except String (ℕ × Builder)
  | [], _, parent, b => .ok (parent, b)
  | part :: parts, path, parent, b =>
    let path := path ++ '/' :: part
    match b.lookup.lookup path with
    | some i => ensureDir parts path i b
    | none =>
      if b.inodes.length ≥ 64 then .error "too many inodes"
      else ensureDir parts path b.inodes.length (b.addDir path parent part)

/-- The number of sectors for a file of `n` bytes. -/
def sectorsFor (n : ℕ) : ℕ := max 1 ((n + 512 - 1) / 512)

/-- The last steps of the loop body: the data goes to the next free sectors. -/
def Builder.addData (b : Builder) (parent : ℕ) (name : List Char) (data : List UInt8) :
    Builder where
  image := put b.image (b.nextSector * 512) data
  inodes := b.inodes ++
    [⟨typeFile, parent, name, data.length, b.nextSector, sectorsFor data.length⟩]
  lookup := b.lookup
  nextSector := b.nextSector + sectorsFor data.length

/-- The body of the loop of `main` over the files. -/
def addFile (b : Builder) (file : List Char × List UInt8) : Except String Builder :=
  let parts := splitPath file.1
  match ensureDir parts.dropLast [] 0 b with
  | .error e => .error e
  | .ok (parent, b) =>
    if b.inodes.length ≥ 64 then .error "too many inodes"
    else if b.nextSector + sectorsFor file.2.length > 4096 then
      .error "filesystem image is too small"
    else
      match parts.getLast? with
      | none => .error "list index out of range"
      | some name => .ok (b.addData parent name file.2)

/-- The variables of `main` before the loop. -/
def start : Builder where
  image := fun _ => 0
  inodes := [⟨typeDir, 0, [], 0, 0, 0⟩]
  lookup := [(['/'], 0)]
  nextSector := 11

/-- The loop of `main` over the sorted files. -/
def addFiles : List (List Char × List UInt8) → Builder → Except String Builder
  | [], b => .ok b
  | file :: files, b =>
    match addFile b file with
    | .error e => .error e
    | .ok b => addFiles files b

/-- The superblock fields, in the order `main` stores them. -/
def putHeader (image : ℕ → UInt8) (inodeCount : ℕ) : ℕ → UInt8 :=
  [(0, [0x4D, 0x59, 0x46, 0x32]), (4, packWord 4096), (8, packWord 64), (12, packWord inodeCount),
    (16, packWord 2), (20, packWord 1), (24, packWord 3), (28, packWord 8), (32, packWord 11),
    (36, packWord 0)].foldl (fun image w => put image w.1 w.2) image

/-- The allocation bitmap: the sectors below `next_sector` are used. -/
def usedMap (nextSector : ℕ) : Sector := Bitmap.putBits Bytes.zero (List.range nextSector) true

/-- The loop of `main` over the inodes, from index `index` on. -/
def putInodes : List Node → ℕ → (ℕ → UInt8) → Except String (ℕ → UInt8)
  | [], _, image => .ok image
  | node :: nodes, index, image =>
    match packInode node with
    | .error e => .error e
    | .ok bytes => putInodes nodes (index + 1) (put image (3 * 512 + index * 64) bytes)

/-- The comparison `sorted` makes: paths are distinct, so the data is never compared. -/
def pathLe (a b : List Char × List UInt8) : Bool := decide (a.1 ≤ b.1)

/-- `main`, from the items of `FILES` to the bytes of the image. -/
def main (files : List (List Char × List UInt8)) : Except String (ℕ → UInt8) :=
  match addFiles (files.mergeSort pathLe) start with
  | .error e => .error e
  | .ok b =>
    putInodes b.inodes 0
      (put (putHeader b.image b.inodes.length) (2 * 512) (List.ofFn (usedMap b.nextSector)))

/-- A sector of the image. -/
def imageSector (image : ℕ → UInt8) (r : UInt32) : Sector :=
  Bytes.ofFun (fun k => image (r.toNat * 512 + k))

end MyOS.Mkfs
