import MosaOS.EntryPoint
import MosaOS.KernelDisplay
import MosaOS.MakeFont

/-!
# The files of the boot volume in memory

`UefiMain` reads a font and a picture into buffers and loads the kernel, and `KernelMain` draws with what it
finds in the buffers. What is in them after `LoadKernel` is here in terms of the files alone: the text that
`makefontfile` was given, the picture that was stored, and the code of the kernel.
-/

namespace MosaOS
open ByteMem BitMapImage Kernel MakeFont

/-! ### The font -/

/-- The characters as the text has them. -/
def MakeFont.FontText.glyphs (f : FontText) : Glyphs := fun c x y =>
  if h : x < 8 ∧ y < 16 then (f.block c.toFin).row ⟨y, h.2⟩ ⟨x, h.1⟩ == commercialAt else false

section
variable {f : FontText} {m : Memory} {a : SizeT} {bytes : Text} {c : BitVec 8} {x y : ℕ}

theorem length_makefontfile (hfile : makefontfile f.text = some bytes) : bytes.length = 256 * 16 := by
  rw [makefontfile_text] at hfile
  obtain rfl := Option.some.inj hfile
  exact List.length_ofFn

/-- The kernel finds the dots of a character of the text in the font file. -/
theorem glyphs_ofFile (hfile : makefontfile f.text = some bytes) (hbytes : BytesAt m a bytes) (hc : c.toNat < 128)
    (hx : x < 8) (hy : y < 16) : (AsciiFont.ofFile m a).glyphs c x y = f.glyphs c x y := by
  rw [makefontfile_text] at hfile
  obtain rfl := Option.some.inj hfile
  have hrow : ((AsciiFont.ofFile m a).font ⟨c.toNat, hc⟩).row ⟨y, hy⟩ = packed ((f.block c.toFin).row ⟨y, hy⟩) := by
    have hbyte := hbytes (c.toNat * 16 + y) (by rw [List.length_ofFn]; omega)
    have hblock := row_of_index f c.toFin ⟨y, hy⟩ (show c.toNat * 16 + y < 256 * 16 by omega)
    rw [List.getElem_ofFn] at hbyte
    have haddr : a + BitVec.ofNat 64 (8 * (c.toNat * 2)) + BitVec.ofNat 64 y =
        a + BitVec.ofNat 64 (c.toNat * 16 + y) := by
      rw [add_ofNat, show 8 * (c.toNat * 2) = c.toNat * 16 by omega]
    show m (a + BitVec.ofNat 64 (8 * (c.toNat * 2)) + BitVec.ofNat 64 y) = _
    rw [haddr, hbyte]
    exact congrArg packed hblock
  have hfont : (AsciiFont.ofFile m a).getFont c.toInt = some ((AsciiFont.ofFile m a).font ⟨c.toNat, hc⟩) :=
    DrawCall.getFont_of_lt _ hc
  rw [AsciiFont.glyphs, hfont, FontText.glyphs, dif_pos ⟨hx, hy⟩]
  show MonoAsciiFont.dot _ x y = _
  rw [MonoAsciiFont.dot, dif_pos hy, hrow, dot_packed ⟨x, hx⟩, beq_eq_decide]

end

/-! ### The picture -/

/-- An uncompressed picture of 24 or 32 bits a pixel stands in the `len` bytes from `file` on. Its rows go up and
need no padding. -/
structure PictureFile (pic : ℕ → ℕ → Color) (width height : BitVec 32) (bits : BitVec 16) (m : Memory)
    (file : SizeT) (len : ℕ) : Prop where
  bmp : BmpFile width height bits m file
  depth : bits = 24 ∨ bits = 32
  up : height.slt 0 = false
  unpadded : 4 ∣ width.toNat * (bits.toNat / 8)
  small : rowSize width.toNat bits.toNat * height.toNat < 2 ^ 31
  inside : (bfOffBits m file).toNat + rowSize width.toNat bits.toNat * height.toNat ≤ len
  fits : len ≤ 2 ^ 64
  pixels : ∀ x < width.toNat, ∀ y < height.toNat, storedPixel m file (height.toNat - 1 - y) x = pic x y

namespace PictureFile
variable {pic : ℕ → ℕ → Color} {width height : BitVec 32} {bits : BitVec 16} {m m' : Memory} {file : SizeT} {len : ℕ}

theorem exists_bytes (h : PictureFile pic width height bits m file len) :
    ∃ bytes, bits.toNat = 8 * bytes ∧ 3 ≤ bytes := by
  rcases h.depth with rfl | rfl
  · exact ⟨3, rfl, le_rfl⟩
  · exact ⟨4, rfl, by simp⟩

theorem ofFile_eq (h : PictureFile pic width height bits m file len) :
    (ofFile m file).width = width ∧ (ofFile m file).height = height := by
  refine ⟨h.bmp.width, ?_⟩
  simp only [ofFile, h.bmp.height, h.up, Bool.false_eq_true, if_false]

variable {x y : ℕ}

/-- The pixels of the file from its first one on, where they stand in memory. -/
theorem pixel_inside (h : PictureFile pic width height bits m file len) {bytes : ℕ} (hbits : bits.toNat = 8 * bytes)
    (h3 : 3 ≤ bytes) (hx : x < width.toNat) {row : ℕ} (hrow : row < height.toNat) :
    (width.toNat * row + x) * bytes + 2 < rowSize width.toNat bits.toNat * height.toNat := by
  have hdvd : 4 ∣ width.toNat * bytes := by
    have hunpadded := h.unpadded
    rwa [hbits, Nat.mul_div_cancel_left _ (by simp)] at hunpadded
  rw [rowSize_of_dvd hbits hdvd]
  calc (width.toNat * row + x) * bytes + 2 < (width.toNat * row + (x + 1)) * bytes := by
        rw [← Nat.add_assoc, Nat.add_mul _ 1]
        omega
    _ ≤ (width.toNat * row + width.toNat) * bytes := Nat.mul_le_mul_right _ (by omega)
    _ = width.toNat * bytes * (row + 1) := by ring
    _ ≤ width.toNat * bytes * height.toNat := Nat.mul_le_mul_left _ hrow

theorem colorIndex_eq (h : PictureFile pic width height bits m file len) {bytes : ℕ} (hbits : bits.toNat = 8 * bytes)
    (h3 : 3 ≤ bytes) (hx : x < width.toNat) (hy : y < height.toNat) :
    (colorIndex m (ofFile m file) (BitVec.ofNat 32 x) (BitVec.ofNat 32 y)).toNat =
      (width.toNat * (height.toNat - 1 - y) + x) * bytes := by
  have hsmall := h.small
  have hinside := h.pixel_inside hbits h3 hx (show height.toNat - 1 - y < height.toNat by omega)
  have hX : (BitVec.ofNat 32 x).toNat = x := toNat_ofNat_of_lt (hx.trans width.isLt)
  have hY : (BitVec.ofNat 32 y).toNat = y := toNat_ofNat_of_lt (hy.trans height.isLt)
  have hlt : BitVec.ofNat 32 y < height := by
    rw [BitVec.lt_def, hY]
    exact hy
  have hindex : ((width * (height - BitVec.ofNat 32 y - 1) + BitVec.ofNat 32 x) *
      ((bits.setWidth 32 : BitVec 32) / 8)).toNat =
        (width.toNat * (height.toNat - 1 - (BitVec.ofNat 32 y).toNat) + (BitVec.ofNat 32 x).toNat) * bytes :=
    toNat_index_bottomUp hlt (by omega) (by rw [hX, hY]; omega)
  rw [hX, hY] at hindex
  rw [← hindex]
  simp only [colorIndex, ofFile, h.bmp.width, h.bmp.height, h.bmp.bitCount, h.up]
  rfl

/-- `getColor` reads bytes of the file only. -/
theorem colorAddrs_subset (h : PictureFile pic width height bits m file len) (hx : x < width.toNat)
    (hy : y < height.toNat) {a : SizeT}
    (ha : a ∈ colorAddrs m (ofFile m file) (BitVec.ofNat 32 x) (BitVec.ofNat 32 y)) : a ∈ range file len := by
  obtain ⟨bytes, hbits, h3⟩ := h.exists_bytes
  have hsmall := h.small
  have hlen := h.inside
  have hfits := h.fits
  have hinside := h.pixel_inside hbits h3 hx (show height.toNat - 1 - y < height.toNat by omega)
  have hindex := h.colorIndex_eq hbits h3 hx hy
  obtain ⟨j, hj, rfl⟩ := List.mem_map.1 ha
  have hj : j ≤ 2 := by
    simp only [List.mem_cons, List.not_mem_nil, or_false] at hj
    rcases hj with rfl | rfl | rfl
    all_goals simp
  show file + (bfOffBits m file).setWidth 64 + _ ∈ _
  rw [image_add file _ hindex j (by omega), add_ofNat]
  exact (add_mem_range (by omega)).2 (by omega)

theorem picture_eq (h : PictureFile pic width height bits m file len) (hx : x < width.toNat)
    (hy : y < height.toNat) : (ofFile m file).picture m x y = pic x y := by
  obtain ⟨bytes, hbits, h3⟩ := h.exists_bytes
  have hX : (BitVec.ofNat 32 x).toNat = x := toNat_ofNat_of_lt (hx.trans width.isLt)
  have hY : (BitVec.ofNat 32 y).toNat = y := toNat_ofNat_of_lt (hy.trans height.isLt)
  have hdvd : 4 ∣ width.toNat * bytes := by
    have hunpadded := h.unpadded
    rwa [hbits, Nat.mul_div_cancel_left _ (by simp)] at hunpadded
  have hcolor := getColor_of_size (x := BitVec.ofNat 32 x) (y := BitVec.ofNat 32 y) h.bmp hbits h3 h.up h.small
    (by rwa [BitVec.lt_def, hX]) (by rwa [BitVec.lt_def, hY])
  rw [hX, hY, pixel_offset hbits (Or.inl hdvd), ← storedPixel_eq h.bmp hbits, h.pixels x hx y hy] at hcolor
  exact hcolor

theorem pictureBytes_subset (h : PictureFile pic width height bits m file len) :
    pictureBytes m file ⊆ range file len := by
  have hwidth := width.isLt
  have hheight := height.isLt
  rintro a (ha | ⟨x, hx, y, hy, ha⟩)
  · have hheaders := h.bmp.headers
    have hinside := h.inside
    exact range_mono (by omega) ha
  · rw [h.ofFile_eq.1, BitVec.lt_def] at hx
    rw [h.ofFile_eq.2, BitVec.lt_def] at hy
    refine h.colorAddrs_subset hx hy ?_
    rwa [BitVec.ofNat_toNat, BitVec.ofNat_toNat, BitVec.setWidth_eq, BitVec.setWidth_eq]

end PictureFile

/-! ### The kernel -/

/-- The bytes of the segments. -/
def segmentBytes (m : Memory) (startAddr : SizeT) : Set SizeT :=
  {a | ∃ i, IsLoad m startAddr i ∧ a ∈ dest m startAddr Elf64Phdr.pMemsz i}

theorem length_entryPointBytes (stack kernelMain entry : SizeT) :
    (entryPointBytes stack kernelMain entry).length = 18 := by
  unfold entryPointBytes
  simp only [List.length_append, length_leBytes, List.length_cons, List.length_nil]

/-- A kernel file as `LoadKernel` expects it, in the `len` bytes from `startAddr` on. One of its segments has the code of
`entry_point`, where the header says. -/
structure KernelFile (m : Memory) (startAddr : SizeT) (len : ℕ) (stack kernelMain : SizeT) : Prop where
  headers : Headers m startAddr len
  count : phnum m startAddr < 256
  size : ∀ i, IsLoad m startAddr i → (phdr m startAddr i).pFilesz.toNat ≤ (phdr m startAddr i).pMemsz.toNat
  data : ∀ i, IsLoad m startAddr i →
    range (startAddr + (phdr m startAddr i).pOffset) (phdr m startAddr i).pFilesz.toNat ⊆ range startAddr len
  apart : Apart m startAddr len Elf64Phdr.pMemsz
  entry : ∃ i o, IsLoad m startAddr i ∧ o + 18 ≤ (phdr m startAddr i).pFilesz.toNat ∧
    (readEhdr m startAddr).eEntry = (phdr m startAddr i).pVaddr + BitVec.ofNat 64 o ∧
    BytesAt m (startAddr + (phdr m startAddr i).pOffset + BitVec.ofNat 64 o)
      (entryPointBytes stack kernelMain (readEhdr m startAddr).eEntry)
  near : ((kernelMain - ((readEhdr m startAddr).eEntry + 15)).setWidth 32).signExtend 64 =
    kernelMain - ((readEhdr m startAddr).eEntry + 15)

namespace KernelFile
variable {m : Memory} {startAddr stack kernelMain ret : SizeT} {len : ℕ} {σ : Type} {fw : Firmware σ} {s : σ}
  {st : LoadState σ}

/-- The loader writes to the segments only. -/
theorem frame (h : KernelFile m startAddr len stack kernelMain)
    (hload : loadKernel fw s m startAddr = some (ret, st)) : Set.EqOn st.mem m (segmentBytes m startAddr)ᶜ := by
  intro a ha
  rw [(loadKernel_mem hload).1]
  refine memAt_frame h.headers (h.apart.file h.size) (Nat.mod_le _ _) fun i _ hi hmem => ?_
  exact ha ⟨i, hi, range_mono (h.size i hi) hmem⟩

/-- The code of `entry_point` is where the loader jumps to, in one of the segments. -/
theorem entry_placed (h : KernelFile m startAddr len stack kernelMain)
    (hload : loadKernel fw s m startAddr = some (ret, st)) :
    ret = (readEhdr m startAddr).eEntry ∧ BytesAt st.mem ret (entryPointBytes stack kernelMain ret) ∧
      range ret 18 ⊆ segmentBytes m startAddr := by
  obtain ⟨hmem, hret⟩ := loadKernel_mem hload
  have hfiles := h.apart.file h.size
  have hframe := memAt_frame h.headers hfiles (Nat.mod_le (phnum m startAddr) 256)
  have hentry : ret = (readEhdr m startAddr).eEntry := by
    rw [hret, hmem, readEhdr_congr (hframe.mono (h.headers.ehdr.trans (hfiles.image_subset _)))]
  obtain ⟨i, o, hi, ho, haddr, hcode⟩ := h.entry
  have hsize := (phdr m startAddr i).pFilesz.isLt
  have hmemsz := h.size i hi
  refine ⟨hentry, ?_, ?_⟩
  · rw [hentry, hmem]
    intro j hj
    have hlt : j < 18 := by rwa [length_entryPointBytes] at hj
    rw [← hcode j hj, haddr, add_ofNat, add_ofNat]
    have hturn : i < phnum m startAddr % 256 := by
      rw [Nat.mod_eq_of_lt h.count]
      exact hi.1
    exact memAt_placed h.headers hfiles h.data (Nat.mod_le _ _) hturn hi (by omega)
  · rw [hentry, haddr]
    exact (range_add_subset (by omega) (by omega)).trans fun a ha => ⟨i, hi, ha⟩

end KernelFile

/-! ### What the loader leaves in memory -/

namespace EfiServices

/-- Where a file is in memory. -/
def place (bs : EfiServices) (file : EfiFile) : Set SizeT := range (bs.buffer file) (bs.bytes file).length

/-- The bytes of the kernel. -/
def segments (bs : EfiServices) (m : Memory) : Set SizeT := segmentBytes (bs.memory m) (bs.buffer .kernel)

/-- The buffers are apart, and no segment of the kernel goes to the font or the picture. -/
structure FilesApart (bs : EfiServices) (m : Memory) : Prop where
  font_bmp : Disjoint (bs.place .font) (bs.place .bmp)
  font_kernel : Disjoint (bs.place .font) (bs.place .kernel)
  bmp_kernel : Disjoint (bs.place .bmp) (bs.place .kernel)
  segments : Disjoint (bs.segments m) (bs.place .font ∪ bs.place .bmp)
  font_le : (bs.bytes .font).length ≤ 2 ^ 64
  bmp_le : (bs.bytes .bmp).length ≤ 2 ^ 64

variable {bs : EfiServices} {m m' : Memory} {stack kernelMain : SizeT}

/-- The font and the picture are in memory when the kernel has been loaded. -/
theorem FilesApart.bytesAt (h : bs.FilesApart m)
    (hkernel : KernelFile (bs.memory m) (bs.buffer .kernel) (bs.bytes .kernel).length stack kernelMain) {σ : Type}
    {fw : Firmware σ} {s : σ} {loaded : SizeT × LoadState σ}
    (hload : loadKernel fw s (bs.memory m) (bs.buffer .kernel) = some loaded)
    (hm : Set.EqOn m' loaded.2.mem (bs.place .font ∪ bs.place .bmp)) :
    BytesAt m' (bs.buffer .font) (bs.bytes .font) ∧ BytesAt m' (bs.buffer .bmp) (bs.bytes .bmp) := by
  have hloop : Set.EqOn loaded.2.mem (bs.memory m) (bs.place .font ∪ bs.place .bmp) :=
    frame_apart (hkernel.frame hload) h.segments.symm
  have hall : Set.EqOn m' (bs.memory m) (bs.place .font ∪ bs.place .bmp) := hm.trans hloop
  have hkernel : Set.EqOn (bs.memory m) (bs.withFile .bmp (bs.withFile .font m)) (bs.place .kernel)ᶜ :=
    eqOn_writeBytes _ _ _
  have hbmp : Set.EqOn (bs.withFile .bmp (bs.withFile .font m)) (bs.withFile .font m) (bs.place .bmp)ᶜ :=
    eqOn_writeBytes _ _ _
  constructor
  · refine BytesAt.congr (bytesAt_writeBytes m _ h.font_le) h.font_le fun a ha => ?_
    rw [hall (Or.inl ha), hkernel (Set.disjoint_left.1 h.font_kernel ha), hbmp (Set.disjoint_left.1 h.font_bmp ha)]
    rfl
  · refine BytesAt.congr (bytesAt_writeBytes (bs.withFile .font m) _ h.bmp_le) h.bmp_le fun a ha => ?_
    rw [hall (Or.inr ha), hkernel (Set.disjoint_left.1 h.bmp_kernel ha)]
    rfl

end EfiServices

/-! ### The memory map -/

namespace MemoryMap
variable {m m' : Memory} {buffer mapSize descriptorSize : SizeT} {count len : ℕ}

theorem Valid.load_congr (hv : (load m buffer mapSize descriptorSize).Valid count)
    (h : Set.EqOn m' m ((load m buffer mapSize descriptorSize).bytes count)) :
    (load m' buffer mapSize descriptorSize).Valid count := by
  have hdesc : ∀ k < count,
      (load m' buffer mapSize descriptorSize).desc k = (load m buffer mapSize descriptorSize).desc k :=
    fun k hk => MemoryDescriptor.load_congr fun a ha => h ⟨k, hk, ha⟩
  refine ⟨hv.descriptorSize_pos, hv.mapSize_eq, fun k hk => ?_, fun i hi j hj hij => ?_⟩
  · rw [hdesc k hk]
    exact hv.fits k hk
  · rw [hdesc i hi, hdesc j hj]
    exact hv.disjoint i hi j hj hij

/-- The descriptors are in the buffer, where they are as long as `KernelMain` takes them to be. -/
theorem bytes_subset (hentries : 32 ≤ descriptorSize.toNat) (hsize : mapSize.toNat = count * descriptorSize.toNat)
    (hlen : mapSize.toNat ≤ len) (hle : len ≤ 2 ^ 64) :
    (load m buffer mapSize descriptorSize).bytes count ⊆ range buffer len := by
  rintro a ⟨j, hj, ha⟩
  have hlast : j * descriptorSize.toNat + descriptorSize.toNat ≤ count * descriptorSize.toNat := by
    rw [← Nat.succ_mul]
    exact Nat.mul_le_mul_right _ hj
  have hplace : BitVec.ofNat 64 (buffer.toNat + j * descriptorSize.toNat) =
      buffer + BitVec.ofNat 64 (j * descriptorSize.toNat) := Layout.ofNat_toNat_add _ _
  replace ha : a ∈ range (BitVec.ofNat 64 (buffer.toNat + j * descriptorSize.toNat)) 32 := ha
  rw [hplace] at ha
  exact range_add_subset (by omega) (by omega) ha

end MemoryMap

/-! ### The same picture from the files -/

section
variable {glyphs glyphs' : Glyphs} {lines : List (List (BitVec 8))} {p : Point}

theorem textLayer_congr (h : ∀ line ∈ lines, ∀ c ∈ line, ∀ x < 8, ∀ y < 16, glyphs' c x y = glyphs c x y) :
    textLayer glyphs' lines p = textLayer glyphs lines p := by
  have hdot : ∀ e ∈ lines.zipIdx, (lineDot glyphs' p e.1 e.2 ↔ lineDot glyphs p e.1 e.2) := by
    rintro ⟨line, l⟩ he
    have hline : line ∈ lines := List.fst_mem_of_mem_zipIdx he
    refine and_congr_right fun htop => and_congr_right fun hrow => and_congr_right fun hcol => ?_
    have hchar : line.getD (p.1 / 8) 0 ∈ line := by
      rw [List.getD_eq_getElem _ _ hcol]
      exact List.getElem_mem hcol
    rw [h line hline _ hchar (p.1 % 8) (Nat.mod_lt _ (by simp)) (p.2 - 16 * l) (by omega)]
  have hany : (∃ e ∈ lines.zipIdx, lineDot glyphs' p e.1 e.2) ↔ ∃ e ∈ lines.zipIdx, lineDot glyphs p e.1 e.2 :=
    exists_congr fun e => and_congr_right fun he => hdot e he
  simp only [textLayer, hany]

end

theorem bootPicture_congr {glyphs glyphs' : Glyphs} {pic pic' : ℕ → ℕ → Color} {w h : ℕ}
    (hglyphs : ∀ c : BitVec 8, c.toNat < 128 → ∀ x < 8, ∀ y < 16, glyphs' c x y = glyphs c x y)
    (hpic : ∀ x < w, ∀ y < h, pic' x y = pic x y) (p : Point) :
    bootPicture glyphs' pic' w h p = bootPicture glyphs pic w h p := by
  have htext : textLayer glyphs' (bootLines.map cString) p = textLayer glyphs (bootLines.map cString) p := by
    refine textLayer_congr fun line hline c hc => hglyphs c ?_
    exact Nat.lt_succ_of_le ((bootLines_short hline).2 c hc).2
  unfold bootPicture
  split
  · exact hpic _ (by omega) _ (by omega)
  · rw [htext]

end MosaOS
