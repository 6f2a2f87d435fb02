import MosaOS.Memory
import Mathlib.Tactic.IntervalCases
import Mathlib.Tactic.Ring

/-!
# Pictures (`kernel/bmp.hpp`, `kernel/bmp.cpp`)

`getColor` steps from row to row by `width` pixels, the format by rows of bytes that are padded to a
multiple of four. `getColor_bottomUp_iff` says for which headers the two agree.
-/

namespace MosaOS
open ByteMem

structure Color where
  r : BitVec 8
  g : BitVec 8
  b : BitVec 8
deriving DecidableEq, Repr

/-- The three bytes of a pixel, in the order of picture files and of the frame buffer. -/
def pixelAt (m : Memory) (a : SizeT) : Color := ⟨m (a + 2), m (a + 1), m a⟩

theorem pixelAt_add (m : Memory) (a : SizeT) (k : ℕ) : pixelAt m (a + BitVec.ofNat 64 k) =
    ⟨m (a + BitVec.ofNat 64 (k + 2)), m (a + BitVec.ofNat 64 (k + 1)), m (a + BitVec.ofNat 64 k)⟩ := by
  rw [← add_ofNat, ← add_ofNat]
  rfl

/-- `head` is used by the constructor only. -/
structure BitMapImage where
  info : SizeT
  image : SizeT
  width : BitVec 32
  height : BitVec 32
  isAscend : Bool

namespace BitMapImage

def bfOffBits (m : Memory) (file : SizeT) : BitVec 32 := readU32 m (file + 10)
def bcWidth (m : Memory) (info : SizeT) : BitVec 32 := readU32 m (info + 4)
def bcHeight (m : Memory) (info : SizeT) : BitVec 32 := readU32 m (info + 8)
def bcBitCount (m : Memory) (info : SizeT) : BitVec 16 := readU16 m (info + 14)
def biCompression (m : Memory) (info : SizeT) : BitVec 32 := readU32 m (info + 16)

def sizeofBMHeader : SizeT := 14

/-- The constructor. `bcHeight` is an `int32_t`. -/
def ofFile (m : Memory) (file : SizeT) : BitMapImage :=
  let info := file + sizeofBMHeader
  { info
    image := file + (bfOffBits m file).setWidth 64
    width := bcWidth m info
    height := if (bcHeight m info).slt 0 then bcHeight m info * (-1) else bcHeight m info
    isAscend := (bcHeight m info).slt 0 }

/-- The indices are computed with 32 bits and are an `int` when they reach `image`. -/
def getColor (m : Memory) (bmp : BitMapImage) (x y : BitVec 32) : Color :=
  let bytes : BitVec 32 := (bcBitCount m bmp.info).setWidth 32 / 8
  let index : BitVec 32 :=
    if !bmp.isAscend then (bmp.width * (bmp.height - y - 1) + x) * bytes
    else (bmp.width * y + x + 1) * bytes
  { r := m (bmp.image + (index + 2).signExtend 64)
    g := m (bmp.image + (index + 1).signExtend 64)
    b := m (bmp.image + index.signExtend 64) }

end BitMapImage

/-! ### The format -/

open BitMapImage

/-- An uncompressed picture of `width` by `height` pixels with `bits` bits each stands at `file`. -/
structure BmpFile (width height : BitVec 32) (bits : BitVec 16) (m : Memory) (file : SizeT) : Prop where
  width : bcWidth m (file + sizeofBMHeader) = width
  height : bcHeight m (file + sizeofBMHeader) = height
  bitCount : bcBitCount m (file + sizeofBMHeader) = bits
  uncompressed : biCompression m (file + sizeofBMHeader) = 0
  headers : 54 ≤ (bfOffBits m file).toNat

/-- The bytes of a row, rounded up to a multiple of four. -/
def rowSize (width bits : ℕ) : ℕ := (width * bits / 8 + 3) / 4 * 4

/-- The pixel in column `col` of the file's row `row`. -/
def storedPixel (m : Memory) (file : SizeT) (row col : ℕ) : Color :=
  let bits := (bcBitCount m (file + sizeofBMHeader)).toNat
  let width := (bcWidth m (file + sizeofBMHeader)).toNat
  pixelAt m (file + BitVec.ofNat 64
    ((bfOffBits m file).toNat + (row * rowSize width bits + col * (bits / 8))))

theorem signExtend_of_lt {x : BitVec 32} (h : x.toNat < 2 ^ 31) :
    x.signExtend 64 = BitVec.ofNat 64 x.toNat := by
  have hmsb : x.msb = false := by
    rw [BitVec.msb_eq_false_iff_two_mul_lt]
    omega
  rw [BitVec.signExtend_eq_setWidth_of_msb_false hmsb, BitVec.ofNat_toNat]

theorem slt_zero (x : BitVec 32) : x.slt 0 = decide (2 ^ 31 ≤ x.toNat) :=
  BitVec.slt_zero_eq_msb.trans (BitVec.msb_eq_decide x)

variable {m : Memory} {file : SizeT} {width height x y : BitVec 32} {bits : BitVec 16}

/-- `image[index + j]` of a file whose pixels start at `off`. -/
theorem image_add (file : SizeT) (off : BitVec 32) {index : BitVec 32} {k : ℕ}
    (hk : index.toNat = k) (j : ℕ) (hlt : k + j < 2 ^ 31) :
    file + off.setWidth 64 + (index + BitVec.ofNat 32 j).signExtend 64 =
      file + BitVec.ofNat 64 (off.toNat + k) + BitVec.ofNat 64 j := by
  have hsum : (index + BitVec.ofNat 32 j).toNat = k + j := by
    rw [BitVec.toNat_add, BitVec.toNat_ofNat, hk]
    omega
  rw [signExtend_of_lt (by omega), hsum, ← BitVec.ofNat_toNat 64 off, BitVec.ofNat_add, BitVec.ofNat_add]
  simp only [BitVec.add_assoc]

theorem toNat_bytes (bits : BitVec 16) : ((bits.setWidth 32 : BitVec 32) / 8).toNat = bits.toNat / 8 := by
  have := bits.isLt
  rw [BitVec.toNat_udiv, BitVec.toNat_setWidth, Nat.mod_eq_of_lt (by omega)]
  rfl

theorem toNat_index_bottomUp (hy : y < height) {bytes : ℕ} (hbytes : bits.toNat / 8 = bytes)
    (hlt : (width.toNat * (height.toNat - 1 - y.toNat) + x.toNat) * bytes < 2 ^ 32) :
    ((width * (height - y - 1) + x) * ((bits.setWidth 32 : BitVec 32) / 8)).toNat =
      (width.toNat * (height.toNat - 1 - y.toNat) + x.toNat) * bytes := by
  rw [BitVec.lt_def] at hy
  have hrow : (height - y - 1).toNat = height.toNat - 1 - y.toNat := by
    have := height.isLt
    rw [BitVec.toNat_sub, BitVec.toNat_sub, show (1 : BitVec 32).toNat = 1 from rfl]
    omega
  rw [BitVec.toNat_mul, BitVec.toNat_add, BitVec.toNat_mul, hrow, toNat_bytes, hbytes, Nat.mod_add_mod,
    Nat.mod_mul_mod, Nat.mod_eq_of_lt hlt]

/-- Where no index reaches 2^31, `getColor` reads the pixel `width * (height - 1 - y) + x`. -/
theorem getColor_bottomUp (h : BmpFile width height bits m file) (hpos : height.slt 0 = false)
    (hy : y < height) {bytes : ℕ} (hbytes : bits.toNat / 8 = bytes)
    (hlt : (width.toNat * (height.toNat - 1 - y.toNat) + x.toNat) * bytes + 2 < 2 ^ 31) :
    getColor m (ofFile m file) x y = pixelAt m (file + BitVec.ofNat 64 ((bfOffBits m file).toNat +
      (width.toNat * (height.toNat - 1 - y.toNat) + x.toNat) * bytes)) := by
  have hindex : ((width * (height - y - 1) + x) * ((bits.setWidth 32 : BitVec 32) / 8)).toNat =
      (width.toNat * (height.toNat - 1 - y.toNat) + x.toNat) * bytes :=
    toNat_index_bottomUp hy hbytes (by omega)
  have hcolor : getColor m (ofFile m file) x y =
      let index := (width * (height - y - 1) + x) * ((bits.setWidth 32 : BitVec 32) / 8)
      let image := file + (bfOffBits m file).setWidth 64
      ⟨m (image + (index + BitVec.ofNat 32 2).signExtend 64),
        m (image + (index + BitVec.ofNat 32 1).signExtend 64), m (image + index.signExtend 64)⟩ := by
    simp only [getColor, ofFile, h.width, h.height, h.bitCount, hpos]
    rfl
  rw [hcolor]
  have hzero := image_add file (bfOffBits m file) hindex 0 (by omega)
  simp only [BitVec.add_zero] at hzero
  simp only [pixelAt, image_add file (bfOffBits m file) hindex 2 (by omega),
    image_add file (bfOffBits m file) hindex 1 (by omega), hzero]
  rfl

/-! ### Rows -/

theorem rowSize_eq {bits bytes : ℕ} (h : bits = 8 * bytes) (width : ℕ) :
    rowSize width bits = (width * bytes + 3) / 4 * 4 := by
  have hrow : width * bits / 8 = width * bytes := by
    rw [h, Nat.mul_left_comm, Nat.mul_div_cancel_left _ (by decide)]
  rw [rowSize, hrow]

theorem le_rowSize {width bits bytes : ℕ} (h : bits = 8 * bytes) : width * bytes ≤ rowSize width bits := by
  rw [rowSize_eq h]
  omega

theorem rowSize_of_dvd {width bits bytes : ℕ} (h : bits = 8 * bytes) (hdvd : 4 ∣ width * bytes) :
    rowSize width bits = width * bytes := by
  rw [rowSize_eq h]
  omega

theorem index_lt {width height bits bytes row x size : ℕ} (h : bits = 8 * bytes) (hrow : row < height)
    (hx : x < width) (hbytes : 3 ≤ bytes) (hsize : rowSize width bits * height < size) :
    (width * row + x) * bytes + 2 < size := by
  have hpixel : (width * row + (x + 1)) * bytes ≤ rowSize width bits * height := by
    calc (width * row + (x + 1)) * bytes ≤ (width * row + width) * bytes :=
          Nat.mul_le_mul_right _ (by omega)
      _ = width * bytes * (row + 1) := by ring
      _ ≤ rowSize width bits * height := Nat.mul_le_mul (le_rowSize h) hrow
  have hnext : (width * row + (x + 1)) * bytes = (width * row + x) * bytes + bytes := by ring
  omega

/-- Where the rows need no padding, or the pixel is in the first row of the file, steps of pixels lead
to where the rows of the file do. -/
theorem pixel_offset {width row col bits bytes : ℕ} (h : bits = 8 * bytes)
    (hpad : 4 ∣ width * bytes ∨ row = 0) :
    (width * row + col) * bytes = row * rowSize width bits + col * bytes := by
  rcases hpad with hdvd | rfl
  · rw [rowSize_of_dvd h hdvd]
    ring
  · ring

theorem getColor_of_size {bytes : ℕ} (h : BmpFile width height bits m file)
    (hbytes : bits.toNat = 8 * bytes) (h3 : 3 ≤ bytes) (hpos : height.slt 0 = false)
    (hsize : rowSize width.toNat bits.toNat * height.toNat < 2 ^ 31) (hx : x < width) (hy : y < height) :
    getColor m (ofFile m file) x y = pixelAt m (file + BitVec.ofNat 64 ((bfOffBits m file).toNat +
      (width.toNat * (height.toNat - 1 - y.toNat) + x.toNat) * bytes)) := by
  rw [BitVec.lt_def] at hx
  refine getColor_bottomUp h hpos hy (by omega) (index_lt hbytes ?_ hx h3 hsize)
  rw [BitVec.lt_def] at hy
  omega

theorem storedPixel_eq {bytes : ℕ} (h : BmpFile width height bits m file)
    (hbytes : bits.toNat = 8 * bytes) (row col : ℕ) :
    storedPixel m file row col = pixelAt m (file + BitVec.ofNat 64 ((bfOffBits m file).toNat +
      (row * rowSize width.toNat bits.toNat + col * bytes))) := by
  simp only [storedPixel, h.width, h.bitCount]
  rw [show bits.toNat / 8 = bytes by omega]

/-! ### A file with a single byte that is not zero -/

def bmpHeader (width height bits : ℕ) : List (BitVec 8) :=
  leBytes 10 0 ++ leBytes 4 54 ++ leBytes 4 40 ++ leBytes 4 width ++ leBytes 4 height ++ leBytes 2 1 ++
    leBytes 2 bits ++ leBytes 4 0

/-- The file at address 0 whose byte `k` behind the headers is 1. -/
def oneByteFile (width height bits k : ℕ) : Memory := fun a =>
  if a.toNat = 54 + k then 1 else (bmpHeader width height bits).getD a.toNat 0

variable {w h b k : ℕ}

theorem oneByteFile_pixel (j : ℕ) (hj : j < 2 ^ 32) :
    oneByteFile w h b k (BitVec.ofNat 64 (54 + j)) = if j = k then 1 else 0 := by
  have haddr : (BitVec.ofNat 64 (54 + j)).toNat = 54 + j := by
    rw [BitVec.toNat_ofNat]
    omega
  have hlen : (bmpHeader w h b).length = 34 := by simp [bmpHeader]
  rw [oneByteFile, haddr, List.getD_eq_getElem?_getD, List.getElem?_eq_none (by omega)]
  simp

theorem readNat_oneByteFile {n o v : ℕ} (ho : o + n ≤ 54)
    (hv : ∀ i < n, (bmpHeader w h b).getD (o + i) 0 = BitVec.ofNat 8 (v / 256 ^ i)) :
    readNat (oneByteFile w h b k) n (BitVec.ofNat 64 o) = v % 256 ^ n := by
  refine readNat_of_bytes fun i hi => ?_
  have haddr : (BitVec.ofNat 64 o + BitVec.ofNat 64 i).toNat = o + i := by
    rw [BitVec.toNat_add, BitVec.toNat_ofNat, BitVec.toNat_ofNat]
    omega
  rw [oneByteFile, haddr, if_neg (by omega)]
  exact hv i hi

theorem readU32_oneByteFile {o v : ℕ} (ho : o ≤ 50)
    (hv : ∀ i < 4, (bmpHeader w h b).getD (o + i) 0 = BitVec.ofNat 8 (v / 256 ^ i)) :
    readU32 (oneByteFile w h b k) (BitVec.ofNat 64 o) = BitVec.ofNat 32 v := by
  rw [readU32, readNat_oneByteFile (by omega) hv]
  exact BitVec.eq_of_toNat_eq (by simp)

theorem readU16_oneByteFile {o v : ℕ} (ho : o ≤ 52)
    (hv : ∀ i < 2, (bmpHeader w h b).getD (o + i) 0 = BitVec.ofNat 8 (v / 256 ^ i)) :
    readU16 (oneByteFile w h b k) (BitVec.ofNat 64 o) = BitVec.ofNat 16 v := by
  rw [readU16, readNat_oneByteFile (by omega) hv]
  exact BitVec.eq_of_toNat_eq (by simp)

theorem bfOffBits_oneByteFile : bfOffBits (oneByteFile w h b k) 0 = 54 :=
  readU32_oneByteFile (o := 10) (by decide) fun i hi => by interval_cases i <;> rfl

theorem blue_oneByteFile (j : ℕ) (hj : j < 2 ^ 32) :
    (pixelAt (oneByteFile w h b k)
      (0 + BitVec.ofNat 64 ((bfOffBits (oneByteFile w h b k) 0).toNat + j))).b =
        if j = k then 1 else 0 := by
  have hzero : (0 : SizeT) + BitVec.ofNat 64 (54 + j) = BitVec.ofNat 64 (54 + j) := BitVec.zero_add _
  rw [bfOffBits_oneByteFile]
  show oneByteFile w h b k ((0 : SizeT) + BitVec.ofNat 64 (54 + j)) = _
  rw [hzero, oneByteFile_pixel j hj]

theorem bmpFile_oneByteFile (width height : BitVec 32) (bits : BitVec 16) (k : ℕ) :
    BmpFile width height bits (oneByteFile width.toNat height.toNat bits.toNat k) 0 where
  width := by
    have := readU32_oneByteFile (w := width.toNat) (h := height.toNat) (b := bits.toNat) (k := k)
      (o := 18) (v := width.toNat) (by decide) fun i hi => by interval_cases i <;> rfl
    rwa [BitVec.ofNat_toNat, BitVec.setWidth_eq] at this
  height := by
    have := readU32_oneByteFile (w := width.toNat) (h := height.toNat) (b := bits.toNat) (k := k)
      (o := 22) (v := height.toNat) (by decide) fun i hi => by interval_cases i <;> rfl
    rwa [BitVec.ofNat_toNat, BitVec.setWidth_eq] at this
  bitCount := by
    have := readU16_oneByteFile (w := width.toNat) (h := height.toNat) (b := bits.toNat) (k := k)
      (o := 28) (v := bits.toNat) (by decide) fun i hi => by interval_cases i <;> rfl
    rwa [BitVec.ofNat_toNat, BitVec.setWidth_eq] at this
  uncompressed :=
    readU32_oneByteFile (o := 30) (v := 0) (by decide) fun i hi => by interval_cases i <;> rfl
  headers := by
    rw [bfOffBits_oneByteFile]
    decide

/-! ### Which pictures `getColor` reads right -/

/-- Where the rows are padded, every pixel above the file's first row is read wrong in some file. -/
theorem getColor_misreads (hpos : height.slt 0 = false) (hx : x < width) (hy : y.toNat + 1 < height.toNat)
    (hstride : rowSize width.toNat 24 ≠ width.toNat * 3)
    (hsize : rowSize width.toNat 24 * height.toNat < 2 ^ 31) :
    ∃ m file, BmpFile width height 24 m file ∧
      getColor m (ofFile m file) x y ≠ storedPixel m file (height.toNat - 1 - y.toNat) x.toNat := by
  have hyh : y < height := by
    rw [BitVec.lt_def]
    omega
  have hbytes : (24 : BitVec 16).toNat = 8 * 3 := rfl
  obtain ⟨row, hrow⟩ : ∃ row, height.toNat - 1 - y.toNat = row + 1 := ⟨height.toNat - 2 - y.toNat, by omega⟩
  -- a file where only the blue of that pixel is set
  have hfile := bmpFile_oneByteFile width height 24 ((row + 1) * rowSize width.toNat 24 + x.toNat * 3)
  refine ⟨_, 0, hfile, fun hsame => ?_⟩
  rw [getColor_of_size hfile hbytes le_rfl hpos hsize hx hyh, storedPixel_eq hfile hbytes, hrow] at hsame
  have hpad : width.toNat * 3 < rowSize width.toNat 24 := lt_of_le_of_ne (le_rowSize rfl) hstride.symm
  have hread : (width.toNat * (row + 1) + x.toNat) * 3 < (row + 1) * rowSize width.toNat 24 + x.toNat * 3 := by
    calc (width.toNat * (row + 1) + x.toNat) * 3 = (row + 1) * (width.toNat * 3) + x.toNat * 3 := by ring
      _ < (row + 1) * rowSize width.toNat 24 + x.toNat * 3 :=
        Nat.add_lt_add_right (Nat.mul_lt_mul_of_pos_left hpad (Nat.succ_pos row)) _
  have hstored : (row + 1) * rowSize width.toNat 24 + x.toNat * 3 < 2 ^ 31 := by
    have hcol : x.toNat * 3 ≤ rowSize width.toNat 24 := by
      rw [BitVec.lt_def] at hx
      omega
    calc (row + 1) * rowSize width.toNat 24 + x.toNat * 3 ≤ (row + 1) * rowSize width.toNat 24 +
          rowSize width.toNat 24 := Nat.add_le_add_left hcol _
      _ = rowSize width.toNat 24 * (row + 2) := by ring
      _ ≤ rowSize width.toNat 24 * height.toNat := Nat.mul_le_mul_left _ (by omega)
      _ < 2 ^ 31 := hsize
  have hblue := congrArg Color.b hsame
  simp only [show (24 : BitVec 16).toNat = 24 from rfl] at hblue
  rw [blue_oneByteFile _ (by omega), blue_oneByteFile _ (by omega), if_pos rfl, if_neg (by omega)] at hblue
  exact absurd hblue (by decide)

theorem getColor_pixel_iff (hbits : bits = 24 ∨ bits = 32) (hpos : height.slt 0 = false)
    (hsize : rowSize width.toNat bits.toNat * height.toNat < 2 ^ 31) (hx : x < width) (hy : y < height) :
    (∀ m file, BmpFile width height bits m file →
      getColor m (ofFile m file) x y = storedPixel m file (height.toNat - 1 - y.toNat) x.toNat) ↔
      bits = 32 ∨ 4 ∣ width.toNat ∨ y.toNat = height.toNat - 1 := by
  obtain ⟨bytes, hbytes, h3, h4⟩ : ∃ bytes, bits.toNat = 8 * bytes ∧ 3 ≤ bytes ∧ bytes ≤ 4 := by
    rcases hbits with rfl | rfl
    · exact ⟨3, rfl, by decide, by decide⟩
    · exact ⟨4, rfl, by decide, by decide⟩
  constructor
  · intro hall
    by_contra hnot
    simp only [not_or] at hnot
    obtain ⟨h32, hdvd, hlast⟩ := hnot
    obtain rfl : bits = 24 := hbits.resolve_right h32
    have hstride : rowSize width.toNat 24 ≠ width.toNat * 3 := by
      unfold rowSize
      omega
    have habove : y.toNat + 1 < height.toNat := by
      rw [BitVec.lt_def] at hy
      omega
    obtain ⟨m, file, hfile, hne⟩ := getColor_misreads hpos hx habove hstride hsize
    exact hne (hall m file hfile)
  · intro hcond m file h
    rw [getColor_of_size h hbytes h3 hpos hsize hx hy, storedPixel_eq h hbytes, pixel_offset hbytes]
    rcases hcond with h32 | hdvd | hlast
    · have hb : bits.toNat = 32 := by rw [h32]; rfl
      obtain rfl : bytes = 4 := by omega
      exact Or.inl (Nat.dvd_mul_left 4 _)
    · exact Or.inl (Nat.dvd_mul_right_of_dvd hdvd _)
    · exact Or.inr (by omega)

/-- `getColor` reads a pixel right in every bottom-up file with this header exactly when the rows need no padding
or the pixel is in the file's first row. So it reads every pixel right exactly when the rows need no
padding, or there are no two rows, or no pixel at all. -/
theorem getColor_bottomUp_iff (width height : BitVec 32) (bits : BitVec 16)
    (hbits : bits = 24 ∨ bits = 32) (hheight : 0 < height.toInt)
    (hsize : rowSize width.toNat bits.toNat * height.toNat < 2 ^ 31) :
    (∀ x y, x < width → y < height → ((∀ m file, BmpFile width height bits m file →
      getColor m (ofFile m file) x y = storedPixel m file (height.toNat - 1 - y.toNat) x.toNat) ↔
        bits = 32 ∨ 4 ∣ width.toNat ∨ y.toNat = height.toNat - 1)) ∧
    ((∀ m file, BmpFile width height bits m file → ∀ x y, x < width → y < height →
      getColor m (ofFile m file) x y =
        storedPixel m file (height.toNat - 1 - y.toNat) x.toNat) ↔
      bits = 32 ∨ 4 ∣ width.toNat ∨ height = 1 ∨ width = 0) := by
  have hpos : height.slt 0 = false := by
    rw [BitVec.slt_eq_decide, decide_eq_false_iff_not]
    show ¬ height.toInt < (0 : BitVec 32).toInt
    rw [show (0 : BitVec 32).toInt = 0 from rfl]
    omega
  refine ⟨fun x y hx hy => getColor_pixel_iff hbits hpos hsize hx hy, fun hall => ?_,
    fun hcond m file h x y hx hy => ?_⟩
  · by_contra hnot
    simp only [not_or] at hnot
    obtain ⟨h32, hdvd, hone, hzero⟩ := hnot
    have hx : 0 < width := by
      rw [BitVec.lt_def]
      exact Nat.pos_of_ne_zero fun h => hzero (BitVec.eq_of_toNat_eq h)
    have hh : 2 ≤ height.toNat := by
      have hne : height.toNat ≠ 1 := fun h => hone (BitVec.eq_of_toNat_eq h)
      have hint := BitVec.toInt_eq_toNat_cond height
      split at hint <;> omega
    -- the first row of the picture is not the first one of the file
    have hy : 0 < height := by
      rw [BitVec.lt_def]
      exact Nat.zero_lt_of_lt hh
    rcases (getColor_pixel_iff hbits hpos hsize hx hy).1 fun m file h => hall m file h 0 0 hx hy with h | h | h
    · exact h32 h
    · exact hdvd h
    · have hzero : (0 : BitVec 32).toNat = 0 := rfl
      omega
  · refine (getColor_pixel_iff hbits hpos hsize hx hy).2 ?_ m file h
    rw [BitVec.lt_def] at hx hy
    rcases hcond with h32 | hdvd | hone | hzero
    · exact Or.inl h32
    · exact Or.inr (Or.inl hdvd)
    · refine Or.inr (Or.inr ?_)
      rw [hone] at hy ⊢
      exact Nat.lt_one_iff.1 hy
    · rw [hzero] at hx
      exact absurd hx (Nat.not_lt_zero _)

theorem getColor_bottomUp_iff_four :
    BmpFile 4 2 24 (oneByteFile 4 2 24 12) 0 ∧
      getColor (oneByteFile 4 2 24 12) (ofFile (oneByteFile 4 2 24 12) 0) 0 0 =
        storedPixel (oneByteFile 4 2 24 12) 0 1 0 :=
  have hfile := bmpFile_oneByteFile 4 2 24 12
  ⟨hfile, (getColor_bottomUp_iff 4 2 24 (Or.inl rfl) (by decide) (by decide)).2.2
    (Or.inr (Or.inl (by decide))) _ 0 hfile 0 0 (by decide) (by decide)⟩

/-- A picture of one column and two rows: `getColor` reads the padding of the first row. -/
theorem getColor_reads_padding :
    BmpFile 1 2 24 (oneByteFile 1 2 24 4) 0 ∧
      getColor (oneByteFile 1 2 24 4) (ofFile (oneByteFile 1 2 24 4) 0) 0 0 = ⟨0, 1, 0⟩ ∧
      storedPixel (oneByteFile 1 2 24 4) 0 1 0 = ⟨0, 0, 1⟩ :=
  ⟨bmpFile_oneByteFile 1 2 24 4, by decide, by decide⟩

end MosaOS
