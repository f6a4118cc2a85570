import MyOS.Assets.Cursor
import MyOS.Diskfs.Target

/-!
# Loading images

`load_myimg` of `assets.c`: the header is checked, a buffer of `payload_size` bytes is allocated,
and the rest of the file is read into it.

The sum in the check of the file's size may wrap, but the second read has to bring `payload_size`
bytes, so the file holds them (`loadMyimg_loaded`). Nothing makes up for the product of width,
height and bytes for a pixel, which may wrap too: an accepted image is as large as its header says
just when the product is below `2^32` (`loadMyimg_validates_iff`). Otherwise a buffer of a few bytes
stands for an image of a gigabyte (`huge_image_accepted`).
-/

namespace MyOS.Assets

open Graphics Diskfs

/-- `MYIMG_MAGIC` -/
def myimgMagic : UInt32 := 0x4D49594D

/-- `struct myimg_header` -/
structure MyimgHeader where
  magic : UInt32
  width : UInt16
  height : UInt16
  format : UInt16
  hotspotX : UInt16
  hotspotY : UInt16
  reserved : UInt16
  payloadSize : UInt32
deriving DecidableEq, Repr

namespace MyimgHeader

/-- `sizeof(struct myimg_header)` -/
def size : UInt32 := 20

/-- The structure stored in the first bytes. -/
def ofBytes (f : ℕ → UInt8) : MyimgHeader where
  magic := le32 f 0
  width := le16 f 4
  height := le16 f 6
  format := le16 f 8
  hotspotX := le16 f 10
  hotspotY := le16 f 12
  reserved := le16 f 14
  payloadSize := le32 f 16

/-- The structure depends on its twenty bytes only. -/
theorem ofBytes_congr {f g : ℕ → UInt8} (h : ∀ k < 20, f k = g k) : ofBytes f = ofBytes g := by
  have h32 : ∀ o, o + 4 ≤ 20 → le32 f o = le32 g o := fun o ho =>
    le32_congr fun k hk => h _ (by omega)
  have h16 : ∀ o, o + 2 ≤ 20 → le16 f o = le16 g o := fun o ho =>
    le16_congr fun k hk => h _ (by omega)
  unfold ofBytes
  rw [h32 0 (by decide), h16 4 (by decide), h16 6 (by decide), h16 8 (by decide),
    h16 10 (by decide), h16 12 (by decide), h16 14 (by decide), h32 16 (by decide)]

/-- `expected` -/
def expected (h : MyimgHeader) : UInt32 :=
  if h.format = myimgRgb565 then h.width.toUInt32 * h.height.toUInt32 * 2
  else if h.format = myimgArgb32 then h.width.toUInt32 * h.height.toUInt32 * 4
  else 0

end MyimgHeader

/-- The bytes of a pixel in a format. -/
def bytesPerPixel (format : UInt16) : ℕ :=
  if format = myimgRgb565 then 2 else if format = myimgArgb32 then 4 else 0

/-- The exact number of bytes of the pixels. -/
def MyimgHeader.imageSize (h : MyimgHeader) : ℕ :=
  h.width.toNat * h.height.toNat * bytesPerPixel h.format

/-- The exact number of bytes of the pixels. -/
def AssetBitmap.imageSize (b : AssetBitmap) : ℕ :=
  b.width.toNat * b.height.toNat * bytesPerPixel b.format

/-- `expected` is the size in 32 bits. -/
theorem MyimgHeader.expected_toNat (h : MyimgHeader) :
    h.expected.toNat = h.imageSize % 2 ^ 32 := by
  unfold expected imageSize bytesPerPixel
  split
  · rw [UInt32.toNat_mul, UInt32.toNat_mul, Nat.mod_mul_mod]
    rfl
  · split
    · rw [UInt32.toNat_mul, UInt32.toNat_mul, Nat.mod_mul_mod]
      rfl
    · rfl

/-- `load_myimg`: what `out` is filled with, and the filesystem. `kmalloc` stands for the
allocator: the memory from the returned pointer on. -/
def loadMyimg (s : Fs) (path : Option CString) (kmalloc : UInt32 → Option (ℕ → UInt8)) :
    Option AssetBitmap × Fs :=
  match diskfsFindFile s.tables path with
  | none => (none, s)
  | some index =>
    let first := diskfsReadIndex s index 0 MyimgHeader.size
    let header := MyimgHeader.ofBytes fun k => first.1.2.getD k 0
    if h : first.1.1 = true ∧ first.1.2.length = MyimgHeader.size.toNat ∧
        header.magic = myimgMagic ∧ 0 < header.width.toNat ∧ 0 < header.height.toNat ∧
        header.payloadSize ≠ 0 then
      if header.expected = 0 ∨ header.expected ≠ header.payloadSize ∨
          diskfsIndexSize first.2.tables index < MyimgHeader.size + header.payloadSize then
        (none, first.2)
      else
        match kmalloc header.payloadSize with
        | none => (none, first.2)
        | some memory =>
          let second := diskfsReadIndex first.2 index MyimgHeader.size header.payloadSize
          if second.1.1 = true ∧ second.1.2.length = header.payloadSize.toNat then
            (some
              { width := header.width
                height := header.height
                format := header.format
                hotspotX := header.hotspotX
                hotspotY := header.hotspotY
                payloadSize := header.payloadSize
                pixels := fun k =>
                  if k < header.payloadSize.toNat then second.1.2.getD k 0 else memory k
                width_pos := h.2.2.2.1
                height_pos := h.2.2.2.2.1 }, second.2)
          else (none, second.2)
    else (none, first.2)

/-! ### What is loaded -/

/-- A read that brings all the bytes it is asked for. -/
theorem diskfsReadIndex_full {s : Fs} {i : Fin 64} {offset size : UInt32} (hb : s.block.Ok)
    (hok : (diskfsReadIndex s i offset size).1.1 = true)
    (hlen : (diskfsReadIndex s i offset size).1.2.length = size.toNat) (hsize : size ≠ 0) :
    offset.toNat + size.toNat ≤ (s.content i).length ∧
      (diskfsReadIndex s i offset size).1.2
        = ((s.content i).drop offset.toNat).take size.toNat := by
  have hpos : 0 < size.toNat := Nat.pos_of_ne_zero fun h0 => hsize (UInt32.toNat_inj.mp h0)
  have hready : s.available = true ∧ s.tables.IsFile i := by
    unfold diskfsReadIndex at hok
    by_cases hskip : (!s.available || !decide (s.tables.IsFile i)) = true
    · rw [if_pos hskip] at hok
      cases hok
    · simpa using hskip
  have hdata := diskfsReadIndex_of_true hready.1 hb hready.2 offset size hok
  have hlength : (s.content i).length = (s.tables.inodes i).size.toNat := length_slice _ _ _
  rw [hdata, length_slice] at hlen
  rw [hdata, hlen, hlength]
  refine ⟨by omega, ?_⟩
  exact slice_eq_take_drop _ (by omega)

/-- A buffer that a read has filled, with the memory behind it. -/
theorem slice_filled (memory : ℕ → UInt8) {l : List UInt8} {n : ℕ} (h : l.length = n) :
    slice (fun k => if k < n then l.getD k 0 else memory k) 0 n = l := by
  subst h
  refine (slice_congr fun k hk => ?_).trans (slice_getD_self l)
  rw [Nat.zero_add]
  exact if_pos hk

/-- The bitmap is the one of a file with this header and content. -/
structure AssetBitmap.Loaded (b : AssetBitmap) (header : MyimgHeader) (content : List UInt8) :
    Prop where
  magic : header.magic = myimgMagic
  width : b.width = header.width
  height : b.height = header.height
  format : b.format = header.format
  hotspot : b.hotspotX = header.hotspotX ∧ b.hotspotY = header.hotspotY
  payload : b.payloadSize = header.payloadSize
  expected : header.expected = header.payloadSize
  nonzero : header.payloadSize ≠ 0
  holds : MyimgHeader.size.toNat + header.payloadSize.toNat ≤ content.length
  pixels : slice b.pixels 0 header.payloadSize.toNat
    = (content.drop MyimgHeader.size.toNat).take header.payloadSize.toNat

/-- The header of a file. -/
def headerOf (content : List UInt8) : MyimgHeader := MyimgHeader.ofBytes fun k => content.getD k 0

theorem headerOf_take {content : List UInt8} : headerOf (content.take 20) = headerOf content := by
  refine MyimgHeader.ofBytes_congr fun k hk => ?_
  simp only [List.getD_eq_getElem?_getD, List.getElem?_take, if_pos hk]

/-- **An accepted image is the file's**: its header, and behind it the bytes of the pixels. -/
theorem loadMyimg_loaded {s : Fs} {path : Option CString} {kmalloc : UInt32 → Option (ℕ → UInt8)}
    {b : AssetBitmap} (hok : s.block.Ok) (h : (loadMyimg s path kmalloc).1 = some b) :
    ∃ index, diskfsFindFile s.tables path = some index ∧
      b.Loaded (headerOf (s.content index)) (s.content index) := by
  unfold loadMyimg at h
  cases hfind : diskfsFindFile s.tables path with
  | none =>
    rw [hfind] at h
    cases h
  | some index =>
    rw [hfind] at h
    dsimp only at h
    refine ⟨index, rfl, ?_⟩
    -- the first read is the header, and leaves the files as they are
    obtain ⟨block, hfirst, hreads⟩ := diskfsReadIndex_reads s index 0 MyimgHeader.size
    split at h
    case isFalse => cases h
    case isTrue hhead =>
      obtain ⟨hread, hlen, hmagic, hw, hh, hsize⟩ := hhead
      obtain ⟨-, hbytes⟩ := diskfsReadIndex_full hok hread hlen (by decide)
      have hheader : MyimgHeader.ofBytes (fun k =>
          (diskfsReadIndex s index 0 MyimgHeader.size).1.2.getD k 0)
            = headerOf (s.content index) := by
        rw [hbytes]
        exact headerOf_take
      rw [← hheader]
      split at h
      case isTrue => cases h
      case isFalse hsound =>
        obtain ⟨-, hexpected⟩ := not_or.mp hsound
        obtain ⟨hexpected, -⟩ := not_or.mp hexpected
        split at h
        case h_1 => cases h
        case h_2 memory hmemory =>
          split at h
          case isFalse => cases h
          case isTrue hrest =>
            -- the second read finds the same file
            have hsame : (diskfsReadIndex s index 0 MyimgHeader.size).2.content index
                = s.content index := by
              rw [hfirst]
              unfold Fs.content Fs.byte
              rw [hreads.moves.logical_eq hok]
            have hok' : (diskfsReadIndex s index 0 MyimgHeader.size).2.block.Ok := by
              rw [hfirst]
              exact hreads.moves.ok hok
            obtain ⟨hholds, hpixels⟩ := diskfsReadIndex_full hok' hrest.1 hrest.2 hsize
            rw [hsame] at hholds hpixels
            cases h
            refine ⟨hmagic, rfl, rfl, rfl, ⟨rfl, rfl⟩, rfl, not_not.mp hexpected, hsize, hholds, ?_⟩
            rw [← hpixels]
            exact slice_filled _ hrest.2

/-! ### The pixels that are drawn -/

/-- The image is as large as its sides say, the file holds it, and every source pixel that the
drawing functions read, on any surface and for any position of the pointer, lies in the buffer. -/
structure AssetBitmap.Validated (b : AssetBitmap) (content : List UInt8) : Prop where
  exact : b.payloadSize.toNat = b.imageSize
  holds : MyimgHeader.size.toNat + b.imageSize ≤ content.length
  wallpaper : b.format = myimgRgb565 → ∀ (s : Surface) (x y : UInt32), s.IsValid → s.Has x y →
    2 * (b.wallpaperIndex s x y).toNat + 2 ≤ b.payloadSize.toNat
  cursor : b.format = myimgArgb32 → ∀ (s : Surface) (x y : Int32) (row col : ℕ), s.IsValid →
    row < b.height.toNat → col < b.width.toNat → b.Visible s x y row col →
    4 * (b.cursorIndex row col).toNat + 4 ≤ b.payloadSize.toNat
  /-- What lies behind the buffer does not show when the cursor is drawn. -/
  drawn : ∀ pixels : ℕ → UInt8, (∀ k < b.payloadSize.toNat, pixels k = b.pixels k) →
    ∀ textCursor s x y textMode m,
      assetsDrawCursor (some { b with pixels := pixels }) textCursor s x y textMode m =
        assetsDrawCursor (some b) textCursor s x y textMode m

/-- In a buffer of the exact size every pixel of the image has its bytes. -/
theorem AssetBitmap.pixel_inside {b : AssetBitmap} (hexact : b.payloadSize.toNat = b.imageSize)
    {n index : ℕ} (hn : bytesPerPixel b.format = n)
    (hindex : index < b.width.toNat * b.height.toNat) :
    n * index + n ≤ b.payloadSize.toNat := by
  calc n * index + n = (index + 1) * n := by rw [Nat.add_mul, Nat.one_mul, Nat.mul_comm]
    _ ≤ b.width.toNat * b.height.toNat * n := Nat.mul_le_mul_right n hindex
    _ = b.payloadSize.toNat := by rw [hexact, imageSize, hn]

/-- A cursor whose source pixels lie in the buffer is drawn from the buffer alone. -/
theorem AssetBitmap.assetsDrawCursor_congr {b : AssetBitmap} {pixels : ℕ → UInt8}
    (hp : ∀ k < b.payloadSize.toNat, pixels k = b.pixels k)
    (hinside : b.format = myimgArgb32 → ∀ row < b.height.toNat, ∀ col < b.width.toNat,
      4 * (b.cursorIndex row col).toNat + 4 ≤ b.payloadSize.toNat)
    (textCursor : Option AssetBitmap) (s : Surface) (x y : Int32) (textMode : Bool) (m : Memory) :
    assetsDrawCursor (some { b with pixels := pixels }) textCursor s x y textMode m =
      assetsDrawCursor (some b) textCursor s x y textMode m := by
  unfold assetsDrawCursor activeBitmap
  split_ifs
  · rfl
  · dsimp only
    split_ifs with hskip
    · rfl
    · -- the two loops draw the same pixel in each round
      obtain ⟨-, hformat⟩ := not_or.mp hskip
      refine congrArg _ (List.foldl_ext _ _ _ fun m row hrow =>
        List.foldl_ext _ _ _ fun m col hcol => ?_)
      have hbound := hinside (not_not.mp hformat) row (List.mem_range.mp hrow) col
        (List.mem_range.mp hcol)
      have hpixel : le32 pixels (4 * (b.cursorIndex row col).toNat) =
          b.pixel32 (b.cursorIndex row col).toNat :=
        le32_congr fun k hk => hp _ (by omega)
      unfold drawCursorPixel
      rw [← hpixel]
      rfl

/-- **Accepted images are validated** just when their exact size is below `2^32`: for every state of
the filesystem in which the block cache is sound, every path and every allocator. -/
theorem loadMyimg_validates_iff {s : Fs} (hok : s.block.Ok) (path : Option CString)
    (kmalloc : UInt32 → Option (ℕ → UInt8)) (b : AssetBitmap)
    (h : (loadMyimg s path kmalloc).1 = some b) :
    ∃ index, diskfsFindFile s.tables path = some index ∧
      (b.Validated (s.content index) ↔ (headerOf (s.content index)).imageSize < 2 ^ 32) := by
  obtain ⟨index, hfind, hl⟩ := loadMyimg_loaded hok h
  refine ⟨index, hfind, ?_⟩
  have hsize : b.imageSize = (headerOf (s.content index)).imageSize := by
    unfold AssetBitmap.imageSize MyimgHeader.imageSize
    rw [hl.width, hl.height, hl.format]
  have hpayload : b.payloadSize.toNat = (headerOf (s.content index)).imageSize % 2 ^ 32 := by
    rw [hl.payload, ← hl.expected, MyimgHeader.expected_toNat]
  have hholds := hl.holds
  rw [← hl.payload] at hholds
  constructor
  · intro hvalid
    rw [← hsize, ← hvalid.exact]
    exact b.payloadSize.toNat_lt
  · intro hlt
    have hexact : b.payloadSize.toNat = b.imageSize := by
      rw [hpayload, hsize, Nat.mod_eq_of_lt hlt]
    have hinside : b.format = myimgArgb32 → ∀ row < b.height.toNat, ∀ col < b.width.toNat,
        4 * (b.cursorIndex row col).toNat + 4 ≤ b.payloadSize.toNat := fun hf row hrow col hcol =>
      b.pixel_inside hexact (by rw [hf]; rfl) (b.cursorIndex_lt hrow hcol)
    refine ⟨hexact, hexact ▸ hholds, ?_, ?_, fun pixels hp => b.assetsDrawCursor_congr hp hinside⟩
    · intro hf t x y _ _
      exact b.pixel_inside hexact (by rw [hf]; rfl) (b.wallpaperIndex_lt t x y)
    · intro hf _ _ _ row col _ hrow hcol _
      exact hinside hf row hrow col hcol

/-- A file of 24 bytes: the header of an ARGB32 image with four bytes of pixels, and four bytes. -/
def argbFile (width height : UInt16) : Buffer := fun k =>
  [0x4D, 0x59, 0x49, 0x4D, UInt8.ofNat width.toNat, UInt8.ofNat (width.toNat / 256),
    UInt8.ofNat height.toNat, UInt8.ofNat (height.toNat / 256), 2, 0, 0, 0, 0, 0, 0, 0, 4, 0, 0, 0,
    0xFF, 0xFF, 0xFF, 0xFF].getD k 0

/-- The filesystem with the file in `/x`. -/
def argbFs (width height : UInt16) : Fs :=
  run motdFs [.write (some xPath) (some (argbFile width height)) 24]

/-- An image of one pixel. -/
theorem loadMyimg_validates_dot :
    ∃ b, (loadMyimg (argbFs 1 1) (some xPath) fun _ => some fun _ => 0).1 = some b ∧
      b.Validated ((argbFs 1 1).content 3) := by
  have hsome : (loadMyimg (argbFs 1 1) (some xPath) fun _ => some fun _ => 0).1.isSome = true := by
    decide +kernel
  obtain ⟨b, hb⟩ := Option.isSome_iff_exists.mp hsome
  obtain ⟨index, hfind, hiff⟩ := loadMyimg_validates_iff (motd_mounted.sane.run _).ok _ _ b hb
  obtain rfl : index = 3 := Option.some.inj (hfind.symm.trans (by decide +kernel))
  exact ⟨b, hb, hiff.mpr (by decide +kernel)⟩

/-- **A huge image in four bytes**: with 33025 columns and 32513 rows the product wraps to 4. The
image is accepted, and the second pixel of the cursor is read behind the buffer. -/
theorem huge_image_accepted :
    ∃ b, (loadMyimg (argbFs 33025 32513) (some xPath) fun _ => some fun _ => 0).1 = some b ∧
      b.payloadSize = 4 ∧ b.imageSize = 2 ^ 32 + 4 ∧ b.format = myimgArgb32 ∧
      highColor.IsValid ∧ b.Visible highColor 100 100 0 1 ∧
      b.payloadSize.toNat < 4 * (b.cursorIndex 0 1).toNat + 4 := by
  have hfields : (loadMyimg (argbFs 33025 32513) (some xPath) fun _ => some fun _ => 0).1.map
      (fun b => (b.width, b.height, b.format, b.hotspotX, b.hotspotY, b.payloadSize))
        = some (33025, 32513, 2, 0, 0, 4) := by decide +kernel
  obtain ⟨b, hb, hb'⟩ := Option.map_eq_some_iff.mp hfields
  simp only [Prod.mk.injEq] at hb'
  obtain ⟨hw, hh, hf, hx, hy, hp⟩ := hb'
  refine ⟨b, hb, hp, ?_, hf, by decide, ?_, ?_⟩
  · unfold AssetBitmap.imageSize
    rw [hw, hh, hf]
    decide
  · unfold AssetBitmap.Visible AssetBitmap.cursorX AssetBitmap.cursorY
    rw [hx, hy]
    decide
  · unfold AssetBitmap.cursorIndex
    rw [hw, hp]
    decide

end MyOS.Assets
